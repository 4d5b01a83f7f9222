import Nachos.Proof.Userprog.InvertedProcess
import Nachos.Proof.Userprog.Replacement

/-!
# Frames of the inverted page table

With `USE_RPT` a page goes to a free frame, or to the one with the least flag.
`FIFOFlag` is stamped as the page is loaded and `LRUFlag` as it is translated.
Neither is cleared when `SaveAThread` frees the frame, and the next page of the
frame starts with the `LRUFlag` that is left there.

`Frames` runs the machine, `LoadAThread` one page at a time, and keeps the times
at which a frame was loaded and translated. `Dated` says that the flags are in the
order of these times. A read of a page that no frame has loads it (`next_absent`),
and a read of one that a frame has translates it (`next_maps`).
-/

namespace Nachos.Vm

open Framework Framework.Recency

/-! ## The system -/

/-- `LoadAThread` under way: the thread, the file, the buffer, and how many pages
are to go. -/
structure Loading where
  tid : Nat
  file : List Byte
  buf : List Byte
  offset : Nat
  rest : Nat

/-- One turn of the loop of `LoadAThread`. -/
def loadTurn (cfg : Config) (env : Env) (s : Vm) (l : Loading) : Except Abort (Vm × Loading) := do
  let (vpn, buf) ← readNumber l.file l.buf l.offset
  let (s, ppn) ← s.pageFrame cfg
  let s ← s.loadPageFrame cfg env l.tid vpn ppn (l.offset + sizeofInt : Nat) l.file
  return (s, { l with buf := buf, offset := l.offset + sizeofInt + pageSize, rest := l.rest - 1 })

/-- The frame of an access that is translated. -/
def hitFrame (cfg : Config) (env : Env) (s : Vm) (addr : Int) (size : Nat) (writing : Bool) :
    Option Nat :=
  match s.translate cfg env addr size writing, s.lookup cfg env (addr.tdiv pageSize) with
  | .ok (_, .ok _), .ok (_, .ok (pageFrame, _)) => some pageFrame.toNat
  | _, _ => none

/-- The machine, and for each frame the times at which its page was loaded, at which
it was last taken from the free ones, and at which it was last translated since it
was reset. -/
structure Frames where
  machine : Vm
  loading : Option Loading
  now : Nat
  loaded : Nat → Nat
  taken : Nat → Nat
  used : Nat → Nat

/-- The operations of the machine, and a turn of `LoadAThread`. -/
inductive FrameOp
  | vm (op : Op)
  | page

namespace Frames

/-- The operation calls `findAvailablePageFrame`. -/
def loads (cfg : Config) (x : Frames) : FrameOp × Env → Bool
  | (.vm op, env) => x.loading.isNone && x.machine.enabled op &&
      op.access.any fun a => x.machine.pageFaults cfg env a.1 a.2.1 a.2.2
  | (.page, _) => x.loading.any fun l => 0 < l.rest

/-- The operation calls `findOneToReplace(pt, 0)`. -/
def evicts (cfg : Config) (x : Frames) (op : FrameOp × Env) : Bool :=
  (x.machine.mmBitmap.findAndSet.toOption.any fun r => r.1 = -1) && x.loads cfg op

/-- The frame that the operation loads. -/
def frame (cfg : Config) (x : Frames) (op : FrameOp × Env) : Option Nat :=
  if x.loads cfg op then (x.machine.pageFrame cfg).toOption.map fun r => r.2.toNat else none

/-- The frame that the operation translates. -/
def translates (cfg : Config) (x : Frames) : FrameOp × Env → Option Nat
  | (.vm op, env) =>
    if x.loading.isNone && x.machine.enabled op then
      op.access.bind fun a => x.machine.hitFrame cfg env a.1 a.2.1 a.2.2
    else none
  | (.page, _) => none

/-- The operation is an `SC_Exit` that resets the frame. -/
def resets (x : Frames) (i : Nat) : FrameOp × Env → Bool
  | (.vm .exit, _) => x.loading.isNone && x.machine.inUser &&
      (x.machine.pt.nth i).tID = x.machine.currentThread
  | _ => false

/-- The machine after an operation. `LoadAThread` is done in turns, and nothing else
happens before it is through. -/
def advance (cfg : Config) (x : Frames) (op : FrameOp × Env) : Except Abort (Vm × Option Loading) :=
  match op.1, x.loading with
  | .vm (.restore t), none =>
    if x.machine.enabled (.restore t) then
      match (x.machine.thread t).bind UserThread.saved with
      | none => .error .assert
      | some f => do
        let (numPages, buf) ← readNumber f op.2.buf 0
        return (x.machine, some ⟨t, f, buf, sizeofInt, numPages.toNat⟩)
    else return (x.machine, none)
  | .vm o, none => do
    let s ← x.machine.next cfg (o, op.2)
    return (s, none)
  | .page, some l =>
    if l.rest = 0 then
      return (x.machine.setThread l.tid fun t => { t with saved := none }, none)
    else do
      let (s, l) ← x.machine.loadTurn cfg op.2 l
      return (s, some l)
  | _, l => return (x.machine, l)

/-- One operation. -/
def next (cfg : Config) (x : Frames) (op : FrameOp × Env) : Except Abort Frames := do
  let (s, l) ← x.advance cfg op
  let now := x.now + 1
  return {
    machine := s
    loading := l
    now := now
    loaded := fun i => if x.frame cfg op = some i then now else x.loaded i
    taken := fun i =>
      if x.frame cfg op = some i ∧ x.machine.mmBitmap.bit i = false then now else x.taken i
    used := fun i =>
      if x.resets i op then 0 else if x.translates cfg op = some i then now else x.used i }

def start (cfg : Config) : Frames := ⟨Vm.start cfg, none, 0, fun _ => 0, fun _ => 0, fun _ => 0⟩

def system (cfg : Config) : System Frames (FrameOp × Env) := .ofFun (start cfg) (next cfg)

end Frames

/-! ## What an operation does to the frames -/

/-- `mmBitmap` has the bits of the valid entries. -/
structure Accounted (s : Vm) : Prop where
  length : s.pt.length = numPhysPages
  wf : s.mmBitmap.Wf
  numBits : s.mmBitmap.numBits = numPhysPages
  bit : ∀ i < numPhysPages, s.mmBitmap.bit i = (s.pt.nth i).valid

/-- Some frames are free, and some of these are reset. -/
structure Freed (s s' : Vm) (reset : Nat → Bool) : Prop where
  accounted : Accounted s'
  entry : ∀ i < numPhysPages, reset i = true → s'.pt.nth i = .reset
  flags : ∀ i < numPhysPages, reset i = false →
    (s'.pt.nth i).fifoFlag = (s.pt.nth i).fifoFlag ∧ (s'.pt.nth i).lruFlag = (s.pt.nth i).lruFlag ∧
      ((s'.pt.nth i).valid = true → (s.pt.nth i).valid = true)

/-- The frame `f` is translated. -/
structure Touched (cfg : Config) (s s' : Vm) (f : Nat) : Prop where
  inside : f < numPhysPages
  bitmap : s'.mmBitmap = s.mmBitmap
  lru : cfg.lruReplace = true → s.pt.Below (·.lruFlag) f intMax ∧ s'.pt = s.pt.stampLRU f
  other : cfg.lruReplace = false → s'.pt = s.pt

/-- A page is loaded into the frame `f`, and gets a `FIFOFlag` above the others. -/
structure Loaded (cfg : Config) (s s' : Vm) (f : Nat) : Prop where
  frame : FrameRPT cfg s f s'.mmBitmap
  length : s'.pt.length = s.pt.length
  others : ∀ j ≠ f, s'.pt.nth j = s.pt.nth j
  valid : (s'.pt.nth f).valid = true
  lru : (s'.pt.nth f).lruFlag = (s.pt.nth f).lruFlag
  fifo : cfg.fifoReplace = true → (s'.pt.nth f).fifoFlag ≤ intMax ∧
    ∀ j ≠ f, s.pt.Held j → (s.pt.nth j).fifoFlag < (s'.pt.nth f).fifoFlag

section
variable {cfg : Config} {env : Env} {s s' : Vm}

theorem Accounted.congr (h : Accounted s) (hb : s'.mmBitmap = s.mmBitmap) (hp : s'.pt = s.pt) :
    Accounted s' := by
  refine ⟨?_, ?_, ?_, ?_⟩
  · rw [hp]
    exact h.length
  · rw [hb]
    exact h.wf
  · rw [hb]
    exact h.numBits
  · rw [hb, hp]
    exact h.bit

/-- An operation that leaves the frames alone. -/
theorem Freed.none (h : Accounted s) (hb : s'.mmBitmap = s.mmBitmap) (hp : s'.pt = s.pt) :
    Freed s s' fun _ => false :=
  ⟨h.congr hb hp, fun _ _ hr => (by cases hr), fun i _ _ => by rw [hp]; exact ⟨rfl, rfl, id⟩⟩

theorem Accounted.start (hR : cfg.useRPT = true) : Accounted (start cfg) := by
  have h := (abs_start hR).table
  exact ⟨h.length, h.wf, h.numBits, h.bit⟩

/-- `Translate`. -/
theorem touched_translate (hR : cfg.useRPT = true) (hl : s.pt.length = numPhysPages) {addr pa : Int}
    {size : Nat} {writing : Bool} (h : s.translate cfg env addr size writing = .ok (s', .ok pa)) :
    ∃ f, s.hitFrame cfg env addr size writing = some f ∧ Touched cfg s s' f := by
  have ht := h
  unfold translate at h
  split at h <;> [cases h; skip]
  obtain ⟨⟨s₁, r⟩, hlook, h⟩ := bind_eq_ok.mp h
  obtain ⟨rfl, -⟩ := lookup_stable (fun _ => stable_rpt hR _) hlook
  cases r with
  | error e => cases h
  | ok p =>
    obtain ⟨pageFrame, e, k⟩ := p
    simp only at h
    split at h <;> [cases h; skip]
    split at h <;> [cases h; skip]
    rename_i hframe
    obtain ⟨s₂, h₂, h⟩ := bind_eq_ok.mp h
    obtain ⟨-, -, h⟩ := bind_eq_ok.mp h
    obtain ⟨s₃, h₃, h⟩ := bind_eq_ok.mp h
    cases h
    obtain ⟨f, rfl⟩ := Int.eq_ofNat_of_zero_le (Int.not_lt.mp fun hn => hframe (.inr hn))
    have hf : f < numPhysPages := by omega
    obtain ⟨hpt, hb⟩ : s'.pt = s₂.pt ∧ s'.mmBitmap = s₂.mmBitmap := by
      unfold touchTLB at h₃
      split at h₃
      · cases h₃
        exact ⟨rfl, rfl⟩
      · split at h₃
        · obtain ⟨tlb, -, h₃⟩ := bind_eq_ok.mp h₃
          cases h₃
          exact ⟨rfl, rfl⟩
        · cases h₃
          exact ⟨rfl, rfl⟩
    refine ⟨f, by simp [hitFrame, ht, hlook], hf, ?_, fun hL => ?_, fun hL => ?_⟩
    · rw [hb]
      exact (Vm.of_core (touch_core h₂)).1
    · simp only [touch, hL, hR, ite_true] at h₂
      obtain ⟨pt, hp, h₂⟩ := bind_eq_ok.mp h₂
      cases h₂
      rw [← hl, Table.updateLRUFlag_eq _ (hl ▸ hf)] at hp
      split at hp <;> [skip; cases hp]
      rename_i hroom
      cases hp
      exact ⟨hroom, hpt⟩
    · simp only [touch, hL, Bool.false_eq_true, ite_false] at h₂
      cases h₂
      exact hpt

/-- `loadPageFrame` of a page into the frame that was found for it. -/
theorem loaded_loadPageFrame (hR : cfg.useRPT = true) (hs : Accounted s) {s₁ : Vm} {p : Int}
    (hp : s.pageFrame cfg = .ok (s₁, p)) {tid : Nat} {vpn fileAddr : Int} {file : List Byte}
    (h : s₁.loadPageFrame cfg env tid vpn p fileAddr file = .ok s') :
    ∃ f, p.toNat = f ∧ Loaded cfg s s' f := by
  obtain ⟨f, b, rfl, hf, rfl⟩ := pageFrame_rpt hR hs.wf hs.numBits hs.length hp
  obtain ⟨s₂, h₂, h⟩ := bind_eq_ok.mp h
  obtain ⟨page, -, h⟩ := bind_eq_ok.mp h
  obtain ⟨-, -, rfl⟩ := store_eq_ok.mp h
  rw [if_pos hR] at h₂
  obtain ⟨pt, hpt, h₂⟩ := bind_eq_ok.mp h₂
  obtain ⟨-, hlt, rfl⟩ := Table.upd_eq_ok.mp hpt
  obtain ⟨pt', hpt', h₂⟩ := bind_eq_ok.mp h₂
  cases h₂
  rw [Int.toNat_natCast] at hlt hpt'
  obtain ⟨t₁, ht₁⟩ : ∃ t₁ : Table, t₁ = s.pt.modify f fun e =>
    { e with tID := tid, vpn := vpn, valid := true, ppn := f } := ⟨_, rfl⟩
  have hn : ∀ j, t₁.nth j = if j = f then
      { s.pt.nth j with tID := tid, vpn := vpn, valid := true, ppn := f } else s.pt.nth j := fun j => by
    rw [ht₁]
    exact Table.nth_modify _ _ _ _ hlt
  have hl : t₁.length = s.pt.length := by rw [ht₁, List.length_modify]
  rw [← ht₁] at hpt'
  refine ⟨f, rfl, ?_⟩
  split at hpt'
  · rw [← hs.length, ← hl, Table.updateFIFOFlag_eq _ (hl ▸ hlt)] at hpt'
    split at hpt' <;> [skip; cases hpt']
    rename_i hroom
    cases hpt'
    have hstamp := Table.nth_stampFIFO (t := t₁) (hl ▸ hlt)
    refine ⟨hf, (Table.length_stampFIFO ..).trans hl, fun j hj => ?_, ?_, ?_,
      fun _ => ⟨?_, fun j hj hh => ?_⟩⟩
    · rw [hstamp, if_neg hj, hn, if_neg hj]
    · rw [hstamp, if_pos rfl, hn, if_pos rfl]
    · rw [hstamp, if_pos rfl, hn, if_pos rfl]
    · rw [hstamp, if_pos rfl]
      exact Table.freshFlag_le_iff.mpr ⟨by decide, hroom⟩
    · have habove : Table.Below (·.fifoFlag) t₁ f _ := Table.lt_freshFlag
      have hlow := habove j (hl ▸ hh.1) hj
      rw [hn, if_neg hj] at hlow
      rw [hstamp, if_pos rfl]
      exact hlow hh.2
  · rename_i hF
    cases hpt'
    exact ⟨hf, hl, fun j hj => by rw [hn, if_neg hj], by rw [hn, if_pos rfl], by rw [hn, if_pos rfl],
      fun hF' => absurd hF' hF⟩

/-- `SC_Exit`. -/
theorem freed_exit (hR : cfg.useRPT = true) (hs : Accounted s) (h : s.exit cfg = .ok s') :
    Freed s s' fun i => s.isUser s.currentThread && (s.pt.nth i).tID = s.currentThread := by
  obtain ⟨s₁, h₁, h⟩ := bind_eq_ok.mp h
  cases h
  unfold exitClean at h₁
  split at h₁
  · rename_i hsp
    cases h₁
    have hno : s.isUser s.currentThread = false := by simp [isUser, hsp]
    simp only [hno, Bool.false_and]
    exact .none hs rfl rfl
  · rename_i sp hsp
    rw [hR, if_pos rfl] at h₁
    obtain ⟨s₂, h₂, h₁⟩ := bind_eq_ok.mp h₁
    cases h₁
    obtain ⟨b, pt, rfl, hw, hn, hl, hpt, hb⟩ := exitRPT_spec (fun i hi => List.mem_range.mp hi)
      hs.wf hs.numBits hs.length h₂
    have hyes : s.isUser s.currentThread = true := by simp [isUser, hsp]
    refine ⟨⟨hl, hw, hn, fun i hi => ?_⟩, fun i hi hr => ?_, fun i hi hr => ?_⟩
    · show b.bit i = (pt.nth i).valid
      rw [hb, hpt]
      split
      · rfl
      · exact hs.bit i hi
    · show pt.nth i = .reset
      simp only [hyes, Bool.true_and, decide_eq_true_eq] at hr
      rw [hpt, if_pos ⟨List.mem_range.mpr hi, hr⟩]
    · simp only [hyes, Bool.true_and, decide_eq_false_iff_not] at hr
      show (pt.nth i).fifoFlag = _ ∧ (pt.nth i).lruFlag = _ ∧ ((pt.nth i).valid = true → _)
      rw [hpt, if_neg fun hc => hr hc.2]
      exact ⟨rfl, rfl, id⟩

/-- `SaveAThread`. -/
theorem freed_suspend (hR : cfg.useRPT = true) (hs : Accounted s) {t : Nat}
    (h : s.suspend cfg env t = .ok s') : Freed s s' fun _ => false := by
  obtain ⟨⟨s₁, f⟩, h₁, h⟩ := bind_eq_ok.mp h
  cases h
  obtain ⟨b, pt, x, r, rfl, hw, hn, hl, hpt, hb, -⟩ :=
    saveAThread_spec hR hs.wf hs.numBits hs.length h₁
  refine ⟨⟨hl, hw, hn, fun i hi => ?_⟩, fun i hi hr => (by cases hr), fun i hi _ => ?_⟩
  · show b.bit i = (pt.nth i).valid
    rw [hb i hi, hpt i hi, hs.bit i hi]
    by_cases ht : (s.pt.nth i).tID = t
    · cases hv : (s.pt.nth i).valid <;> simp [ht]
    · simp [ht]
  · show (pt.nth i).fifoFlag = _ ∧ (pt.nth i).lruFlag = _ ∧ ((pt.nth i).valid = true → _)
    rw [hpt i hi]
    split
    · exact ⟨rfl, rfl, fun hv => by cases hv⟩
    · exact ⟨rfl, rfl, id⟩

/-- An access. -/
theorem next_accessed {op : Op} {a : Int × Nat × Bool} (ha : op.access = some a)
    (hen : s.enabled op = true) (h : s.next cfg (op, env) = .ok s') :
    Accessed cfg env s s' a.1 a.2.1 a.2.2 := by
  unfold Vm.next at h
  rw [if_pos hen] at h
  cases op with
  | read addr size =>
    cases ha
    obtain ⟨⟨s₁, v⟩, h₁, h⟩ := bind_eq_ok.mp h
    cases h
    exact readMem_cases h₁
  | write addr size v =>
    cases ha
    obtain ⟨⟨s₁, b⟩, h₁, h⟩ := bind_eq_ok.mp h
    cases h
    exact writeMem_cases h₁
  | create | run | exit | suspend | restore => cases ha

/-- The kinds of accesses. -/
theorem accessed_cases (hR : cfg.useRPT = true) (hs : Accounted s) {addr : Int} {size : Nat}
    {writing : Bool} (h : Accessed cfg env s s' addr size writing) :
    (s.pageFaults cfg env addr size writing = false ∧
      ∃ f, s.hitFrame cfg env addr size writing = some f ∧ Touched cfg s s' f) ∨
    (s.pageFaults cfg env addr size writing = true ∧ s.hitFrame cfg env addr size writing = none ∧
      s.pageFaultHandler cfg env addr = .ok s') ∨
    (s.pageFaults cfg env addr size writing = false ∧ s.hitFrame cfg env addr size writing = none ∧
      s'.mmBitmap = s.mmBitmap ∧ s'.pt = s.pt) := by
  rcases h with ⟨s₁, pa, m, ht, rfl⟩ | ⟨s₁, which, ht, hx⟩
  · obtain ⟨f, hf, hh⟩ := touched_translate hR hs.length ht
    exact .inl ⟨by simp [pageFaults, ht], f, hf, hh.inside, hh.bitmap, hh.lru, hh.other⟩
  · right
    have hnone : s.hitFrame cfg env addr size writing = none := by simp [hitFrame, ht]
    cases which with
    | pageFault =>
      obtain rfl := translate_stays ht (.inl rfl)
      exact .inl ⟨by simp [pageFaults, ht], hnone, hx⟩
    | tlbMiss =>
      obtain rfl := translate_stays ht (.inr rfl)
      obtain ⟨⟨s₂, r⟩, hw, hx⟩ := bind_eq_ok.mp hx
      obtain rfl := stable_rpt hR _ _ _ hw
      cases r with
      | error e =>
        rcases pageTableTranslation_error hw with rfl | rfl
        · exact .inl ⟨by simp [pageFaults, faults, ht, hw], hnone, hx⟩
        · cases hx
      | ok p =>
        obtain ⟨tlb, -, hx⟩ := bind_eq_ok.mp hx
        cases hx
        exact .inr ⟨by simp [pageFaults, faults, ht, hw], hnone, rfl, rfl⟩
    | readOnly | busError | addressError => cases hx

end

/-! ## Reads of a page -/

section
variable {cfg : Config} {env : Env} {s : Vm}

/-- A user program that can run, has `n` pages, and whose file begins with them. -/
def User (s : Vm) (t n : Nat) : Prop :=
  s.runnable t = true ∧ (s.space t).toOption.any fun sp =>
    sp.program.inFileAddr = 0 ∧ sp.program.numPages = n

instance (s : Vm) (t n : Nat) : Decidable (User s t n) := inferInstanceAs (Decidable (_ ∧ _))

/-- The frame `i` has the page `v` of the running thread. -/
def Maps (s : Vm) (i v : Nat) : Prop :=
  (s.pt.nth i).vpn = v ∧ (s.pt.nth i).tID = s.currentThread

instance (s : Vm) (i v : Nat) : Decidable (s.Maps i v) := inferInstanceAs (Decidable (_ ∧ _))

theorem User.congr {s' : Vm} (h : s'.threadArray = s.threadArray) {t n : Nat} (hu : User s t n) :
    User s' t n := by
  unfold User runnable Vm.space thread at *
  rwa [h]

theorem User.space {t n : Nat} (hu : User s t n) :
    ∃ sp, s.space t = .ok sp ∧ sp.program.inFileAddr = 0 ∧ sp.program.numPages = n := by
  obtain ⟨sp, hsp, hp⟩ := (Option.any_eq_true _ _).mp hu.2
  cases h : s.space t with
  | error e =>
    rw [h] at hsp
    cases hsp
  | ok sp' =>
    rw [h] at hsp
    cases hsp
    exact ⟨sp, rfl, of_decide_eq_true hp⟩

theorem User.inUser {n : Nat} (hu : User s s.currentThread n) : s.inUser = true := by
  obtain ⟨sp, hsp, -⟩ := hu.space
  obtain ⟨u, ht, hs⟩ := space_eq_ok.mp hsp
  rw [Vm.inUser, hu.1, isUser, ht, Option.bind_some, hs]
  rfl

theorem page_tdiv (v : Nat) : ((v : Int) * pageSize).tdiv pageSize = v :=
  Int.mul_tdiv_cancel _ (by decide)

/-- A page that no frame has. -/
theorem translate_absent (hR : cfg.useRPT = true) (hT : cfg.useTLB = false)
    (hl : s.pt.length = numPhysPages) {v : Nat} (hv : ∀ i < numPhysPages, ¬ s.Maps i v) :
    s.translate cfg env (v * pageSize) 1 false = .ok (s, .error .pageFault) := by
  have hfind : (s.pt.findIdx? fun e => e.vpn = (v : Int) && e.tID = (s.currentThread : Int)) =
      none := by
    refine List.findIdx?_eq_none_iff.mpr fun e he => ?_
    obtain ⟨i, hi, rfl⟩ := Table.mem_iff_nth.mp he
    have hno : ¬ ((s.pt.nth i).vpn = v ∧ (s.pt.nth i).tID = s.currentThread) := hv i (hl ▸ hi)
    rwa [← Bool.not_eq_true, Bool.and_eq_true, decide_eq_true_eq, decide_eq_true_eq]
  unfold translate
  rw [if_neg (by omega)]
  simp only [page_tdiv, lookup, hT, Bool.false_eq_true, ite_false, pageTableTranslation, hR, ite_true,
    rptTranslation, hfind]
  rfl

variable (env) in
/-- The frame that has a page. -/
theorem translate_maps (hR : cfg.useRPT = true) (hT : cfg.useTLB = false)
    (hl : s.pt.length = numPhysPages) {v n f : Nat} (hu : User s s.currentThread n) (hv : v < n)
    (hf : f < numPhysPages) (hm : s.Maps f v) (hfirst : ∀ i < f, ¬ s.Maps i v)
    (hroom : cfg.lruReplace = true → s.pt.Below (·.lruFlag) f intMax) :
    ∃ s', s.translate cfg env (v * pageSize) 1 false = .ok (s', .ok ((f : Int) * pageSize)) ∧
      s'.threadArray = s.threadArray ∧ s'.currentThread = s.currentThread ∧
      s.hitFrame cfg env (v * pageSize) 1 false = some f := by
  obtain ⟨sp, hsp, -, hn⟩ := hu.space
  have hrun : s.Running cfg sp := ⟨hsp, by simp [hR], fun _ => hl, by simp [hT]⟩
  have hdiv : (v : Int) * pageSize / pageSize = v := Int.mul_ediv_cancel _ (by decide)
  have hmod : (v : Int) * pageSize % pageSize = 0 := Int.mul_emod_left ..
  have hmap : s.mapping cfg sp v = some ((f : Int), s.pt.nth f) := by
    have hfind : (s.pt.findIdx? fun e => e.vpn = (v : Int) && e.tID = (s.currentThread : Int)) =
        some f := by
      have hnth : ∀ i (hi : i < s.pt.length), s.pt[i] = s.pt.nth i := fun i hi => by simp [Table.nth, hi]
      refine List.findIdx?_eq_some_iff_getElem.mpr ⟨hl ▸ hf, ?_, fun j hj => ?_⟩
      · rw [hnth, Bool.and_eq_true, decide_eq_true_eq, decide_eq_true_eq]
        exact hm
      · rw [hnth, Bool.and_eq_true, decide_eq_true_eq, decide_eq_true_eq]
        exact hfirst j hj
    rw [mapping, hT, hR, if_neg Bool.false_ne_true, if_pos rfl, hfind]
    rfl
  have hlegal : s.Legal cfg sp (v * pageSize) 1 false f (s.pt.nth f) :=
    ⟨.inl rfl, Int.emod_one _, by unfold pageSize; omega, by rw [hdiv]; exact hmap, by simp, by omega⟩
  have hto := hlegal.translate_ok env hrun (fun hL => ⟨?_, by simp [hT]⟩) ?_
  · rw [hdiv, hmod, Int.add_zero] at hto
    have hsame : (s.touched cfg sp v f).threadArray = s.threadArray ∧
        (s.touched cfg sp v f).currentThread = s.currentThread := by
      unfold touched setTable
      rw [hT, hR]
      split <;> exact ⟨rfl, rfl⟩
    refine ⟨_, hto, hsame.1, hsame.2, ?_⟩
    simp only [hitFrame, hto, page_tdiv, lookup_mapped hrun hmap, Int.toNat_natCast]
  · rw [hdiv, position, pageTable, if_pos hR, if_pos hR]
    exact hroom hL
  · unfold Fits
    rw [hmod]
    unfold memorySize pageSize
    omega

theorem exists_pageFrame (hR : cfg.useRPT = true) (hs : Accounted s) :
    ∃ s' p, s.pageFrame cfg = .ok (s', p) := by
  rcases Bitmap.findAndSet_cases hs.wf with ⟨k, -, -, -, hfind⟩ | ⟨-, hfind⟩
  · refine ⟨{ s with mmBitmap := s.mmBitmap.put k true }, k, bind_eq_ok.mpr ⟨_, hfind, ?_⟩⟩
    simp only
    rw [if_neg (by omega)]
    rfl
  · refine ⟨s, (s.pt.findOneToReplace cfg : Nat), bind_eq_ok.mpr ⟨_, hfind, ?_⟩⟩
    simp only [ite_true, victim, hR]
    rfl

/-- The lowest free frame is taken. -/
theorem Loaded.eq_free {s' : Vm} {f k : Nat} (hl : Loaded cfg s s' f) (hs : Accounted s)
    (hk : k < numPhysPages) (hheld : ∀ i < k, (s.pt.nth i).valid = true)
    (hfree : (s.pt.nth k).valid = false) : f = k := by
  rw [← hs.bit k hk] at hfree
  rcases hl.frame with ⟨hlt, ⟨hlow, hf, -⟩ | ⟨hfull, -⟩⟩
  · rcases Nat.lt_trichotomy f k with hfk | rfl | hkf
    · rw [hs.bit f hlt, hheld f hfk] at hf
      cases hf
    · rfl
    · rw [hlow k hkf] at hfree
      cases hfree
  · rw [hfull k hk] at hfree
    cases hfree

variable (env) in
/-- A page fault of a user program is handled, as long as the counters have room. -/
theorem exists_pageFaultHandler (hR : cfg.useRPT = true) (hs : Accounted s) {v n : Nat}
    (hu : User s s.currentThread n) (hv : (v : Int) * pageSize ≤ intMax) {B : Int} (hB : -1 ≤ B)
    (hmax : B < intMax) (hflags : cfg.fifoReplace = true → ∀ i < numPhysPages,
      (s.pt.nth i).valid = true → (s.pt.nth i).fifoFlag ≤ B) :
    ∃ s' s₁, ∃ f : Nat, s.pageFrame cfg = .ok (s₁, (f : Int)) ∧
      s.pageFaultHandler cfg env (v * pageSize) = .ok s' ∧ Loaded cfg s s' f ∧
      s'.threadArray = s.threadArray ∧ s'.currentThread = s.currentThread ∧ s'.Maps f v ∧
      (cfg.fifoReplace = true → (s'.pt.nth f).fifoFlag ≤ B + 1) := by
  obtain ⟨sp, hsp, haddr, -⟩ := hu.space
  obtain ⟨s₁, p, hp⟩ := exists_pageFrame hR hs
  obtain ⟨f, b, rfl, hf, rfl⟩ := pageFrame_rpt hR hs.wf hs.numBits hs.length hp
  have hlt : f < s.pt.length := hs.length ▸ hf.1
  obtain ⟨t₁, t₂, h₁, h₂, -, -, hcore, hflag⟩ := Table.load_entry cfg env.stray numPhysPages B
    (fun e => { e with tID := s.currentThread, vpn := v, valid := true, ppn := f }) hlt hB hmax
    fun hF j hj _ => by
      rw [Table.entry_eq_nth _ (hs.length ▸ hj)]
      exact hflags hF j hj
  obtain ⟨page, hpage⟩ : ∃ page, page = (sp.program.executable.drop (v * pageSize)).take pageSize :=
    ⟨_, rfl⟩
  have hread : Unix.readAt sp.program.executable pageSize ((v : Int) * pageSize) = .ok page := by
    refine readAt_eq_ok.mpr ⟨by unfold pageSize; omega, ?_⟩
    rw [hpage, ← Int.natCast_mul, Int.toNat_natCast]
  have hlen : page.length ≤ pageSize := by
    rw [hpage]
    exact List.length_take_le ..
  have hpos := hf.1
  obtain ⟨s', hs'⟩ : ∃ s', s' = { s with
    mmBitmap := b, pt := t₂, mainMemory := blit s.mainMemory (f * pageSize) page } := ⟨_, rfl⟩
  have hload : Vm.loadPageFrame cfg env { s with mmBitmap := b } s.currentThread v f (v * pageSize)
      sp.program.executable = .ok s' := by
    simp only [loadPageFrame, hR, ite_true]
    refine bind_eq_ok.mpr ⟨{ s with mmBitmap := b, pt := t₂ },
      bind_eq_ok.mpr ⟨t₁, h₁, bind_eq_ok.mpr ⟨t₂, h₂, rfl⟩⟩, bind_eq_ok.mpr ⟨page, hread, ?_⟩⟩
    refine store_eq_ok.mpr ⟨by unfold pageSize; omega, ?_, ?_⟩
    · unfold memorySize pageSize numPhysPages at *
      omega
    · rw [hs', ← Int.natCast_mul, Int.toNat_natCast]
  obtain ⟨f', hf', hl⟩ := loaded_loadPageFrame hR hs hp hload
  obtain rfl : f = f' := (Int.toNat_natCast f).symm.trans hf'
  obtain ⟨hvpn, htid, -⟩ := TranslationEntry.of_core hcore
  refine ⟨s', _, f, hp, ?_, hl, by rw [hs'], by rw [hs'], ?_, ?_⟩
  · unfold pageFaultHandler
    simp only [page_tdiv, hp, ok_bind]
    refine bind_eq_ok.mpr ⟨sp, hsp, ?_⟩
    rw [haddr, Int.zero_add, i32, defined_of (by unfold pageSize intMax at *; omega)]
    exact hload
  · rw [hs']
    exact ⟨hvpn, htid⟩
  · rw [hs']
    exact hflag

end

namespace Frames

/-- What an operation does, beside what `next` keeps of it. -/
inductive Effect (cfg : Config) (x : Frames) (op : FrameOp × Env) (s' : Vm) : Prop
  | freed (frame : x.frame cfg op = none) (hit : x.translates cfg op = none)
    (freed : Freed x.machine s' fun i => x.resets i op)
  | touched (f : Nat) (frame : x.frame cfg op = none) (hit : x.translates cfg op = some f)
    (resets : ∀ i, x.resets i op = false) (touched : Touched cfg x.machine s' f)
  | loaded (f : Nat) (frame : x.frame cfg op = some f) (hit : x.translates cfg op = none)
    (resets : ∀ i, x.resets i op = false) (loaded : Loaded cfg x.machine s' f)

section
variable {cfg : Config} {env : Env} {x : Frames} {s' : Vm}

theorem frame_eq_none {op : FrameOp × Env} (h : x.loads cfg op = false) : x.frame cfg op = none := by
  unfold frame
  rw [if_neg (by simp [h])]

theorem frame_eq_some {op : FrameOp × Env} {s₁ : Vm} {p : Int} (h : x.loads cfg op = true)
    (hp : x.machine.pageFrame cfg = .ok (s₁, p)) : x.frame cfg op = some p.toNat := by
  unfold frame
  rw [if_pos h, hp]
  rfl

/-- An operation that leaves the frames alone. -/
theorem Effect.none {op : FrameOp × Env} (hs : Accounted x.machine) (hloads : x.loads cfg op = false)
    (hhit : x.translates cfg op = .none) (hresets : ∀ i, x.resets i op = false)
    (hb : s'.mmBitmap = x.machine.mmBitmap) (hp : s'.pt = x.machine.pt) : Effect cfg x op s' := by
  have hr : (fun i => x.resets i op) = fun _ => false := funext hresets
  refine .freed (frame_eq_none hloads) hhit ?_
  rw [hr]
  exact .none hs hb hp

/-- A turn of `LoadAThread`. -/
theorem effect_loadTurn (hR : cfg.useRPT = true) (hs : Accounted x.machine) {l l' : Loading}
    (hl : x.loading = some l) (hrest : l.rest ≠ 0)
    (h : x.machine.loadTurn cfg env l = .ok (s', l')) : Effect cfg x (.page, env) s' := by
  obtain ⟨⟨vpn, buf⟩, -, h⟩ := bind_eq_ok.mp h
  obtain ⟨⟨s₁, p⟩, hp, h⟩ := bind_eq_ok.mp h
  obtain ⟨s₂, h₂, h⟩ := bind_eq_ok.mp h
  cases h
  obtain ⟨f, rfl, hf⟩ := loaded_loadPageFrame hR hs hp h₂
  have hloads : x.loads cfg (.page, env) = true := by
    simp only [loads, hl, Option.any_some, decide_eq_true_eq]
    omega
  exact .loaded _ (frame_eq_some hloads hp) rfl (fun _ => rfl) hf

/-- An access. -/
theorem effect_access (hR : cfg.useRPT = true) (hs : Accounted x.machine) (hl : x.loading = none)
    {op : Op} {a : Int × Nat × Bool} (ha : op.access = some a) (hen : x.machine.enabled op = true)
    (h : x.machine.next cfg (op, env) = .ok s') : Effect cfg x (.vm op, env) s' := by
  have hloads : x.loads cfg (.vm op, env) = x.machine.pageFaults cfg env a.1 a.2.1 a.2.2 := by
    simp [loads, hl, hen, ha]
  have hhit : x.translates cfg (.vm op, env) = x.machine.hitFrame cfg env a.1 a.2.1 a.2.2 := by
    simp [translates, hl, hen, ha]
  have hresets : ∀ i, x.resets i (.vm op, env) = false := fun i => by
    cases op with
    | exit => cases ha
    | create | run | read | write | suspend | restore => rfl
  rcases accessed_cases hR hs (next_accessed ha hen h) with
    ⟨hp, f, hf, hh⟩ | ⟨hp, hn, hx⟩ | ⟨hp, hn, hb, ht⟩
  · exact .touched f (frame_eq_none (hloads.trans hp)) (hhit.trans hf) hresets hh
  · obtain ⟨⟨s₁, p⟩, h₁, hx⟩ := bind_eq_ok.mp hx
    obtain ⟨sp, -, hx⟩ := bind_eq_ok.mp hx
    obtain ⟨fileAddr, -, hx⟩ := bind_eq_ok.mp hx
    obtain ⟨f, rfl, hf⟩ := loaded_loadPageFrame hR hs h₁ hx
    exact .loaded _ (frame_eq_some (hloads.trans hp) h₁) (hhit.trans hn) hresets hf
  · exact .none hs (hloads.trans hp) (hhit.trans hn) hresets hb ht

/-- An operation that is not an access. -/
theorem effect_other (hR : cfg.useRPT = true) (hs : Accounted x.machine) (hl : x.loading = none)
    {op : Op} (ha : op.access = none) (hop : ∀ t, op ≠ .restore t)
    (h : x.machine.next cfg (op, env) = .ok s') : Effect cfg x (.vm op, env) s' := by
  have hloads : x.loads cfg (.vm op, env) = false := by simp [loads, ha]
  have hhit : x.translates cfg (.vm op, env) = none := by simp [translates, ha]
  unfold Vm.next at h
  split at h
  · rename_i hen
    cases op with
    | read | write => cases ha
    | restore t => exact absurd rfl (hop t)
    | create p =>
      obtain ⟨i, -, hs', -⟩ := thread_create h
      exact .none hs hloads hhit (fun _ => rfl) (by rw [hs']) (by rw [hs'])
    | run t =>
      cases h
      have hsame : (x.machine.run cfg t).mmBitmap = x.machine.mmBitmap ∧
          (x.machine.run cfg t).pt = x.machine.pt := by
        unfold Vm.run
        cases cfg.useTLB <;> exact ⟨rfl, rfl⟩
      exact .none hs hloads hhit (fun _ => rfl) hsame.1 hsame.2
    | suspend t =>
      exact .freed (frame_eq_none hloads) hhit (freed_suspend hR hs h)
    | exit =>
      refine .freed (frame_eq_none hloads) hhit ?_
      have hr : (fun i => x.resets i (.vm .exit, env)) = fun i => x.machine.isUser
          x.machine.currentThread && (x.machine.pt.nth i).tID = x.machine.currentThread := by
        have hen : x.machine.runnable x.machine.currentThread = true := hen
        funext i
        simp [resets, hl, inUser, hen]
      rw [hr]
      exact freed_exit hR hs h
  · rename_i hen
    cases h
    refine .none hs hloads hhit (fun i => ?_) rfl rfl
    cases op with
    | exit =>
      have hen : x.machine.runnable x.machine.currentThread = false := by simpa [enabled] using hen
      simp [resets, inUser, hen]
    | create | run | read | write | suspend | restore => rfl

theorem effect_advance (hR : cfg.useRPT = true) (hs : Accounted x.machine) {op : FrameOp × Env}
    {l : Option Loading} (h : x.advance cfg op = .ok (s', l)) : Effect cfg x op s' := by
  obtain ⟨op, env⟩ := op
  cases hl : x.loading with
  | some l₀ =>
    cases op with
    | page =>
      simp only [advance, hl] at h
      split at h
      · rename_i hrest
        cases h
        exact .none hs (by simp [loads, hl, hrest]) rfl (fun _ => rfl) rfl rfl
      · rename_i hrest
        obtain ⟨⟨s₁, l₁⟩, h₁, h⟩ := bind_eq_ok.mp h
        cases h
        exact effect_loadTurn hR hs hl hrest h₁
    | vm op =>
      simp only [advance, hl] at h
      cases h
      refine .none hs (by simp [loads, hl]) (by simp [translates, hl]) (fun i => ?_) rfl rfl
      cases op <;> simp [resets, hl]
  | none =>
    cases op with
    | page =>
      simp only [advance, hl] at h
      cases h
      exact .none hs (by simp [loads, hl]) rfl (fun _ => rfl) rfl rfl
    | vm op =>
      by_cases hop : ∃ t, op = .restore t
      · obtain ⟨t, rfl⟩ := hop
        have hsame : s' = x.machine := by
          simp only [advance, hl] at h
          split at h
          · split at h
            · cases h
            · obtain ⟨⟨n, buf⟩, -, h⟩ := bind_eq_ok.mp h
              cases h
              rfl
          · cases h
            rfl
        subst hsame
        exact .none hs (by simp [loads, Op.access]) (by simp [translates, Op.access]) (fun _ => rfl)
          rfl rfl
      · have hn : x.machine.next cfg (op, env) = .ok s' := by
          cases op with
          | restore t => exact absurd ⟨t, rfl⟩ hop
          | create | run | read | write | exit | suspend =>
            simp only [advance, hl] at h
            obtain ⟨s₁, h₁, h⟩ := bind_eq_ok.mp h
            cases h
            exact h₁
        cases ha : op.access with
        | none => exact effect_other hR hs hl ha (fun t e => hop ⟨t, e⟩) hn
        | some a =>
          by_cases hen : x.machine.enabled op = true
          · exact effect_access hR hs hl ha hen hn
          · unfold Vm.next at hn
            rw [if_neg hen] at hn
            cases hn
            refine .none hs (by simp [loads, hen]) (by simp [translates, hen]) (fun i => ?_) rfl rfl
            cases op with
            | exit => cases ha
            | create | run | read | write | suspend | restore => rfl

end

/-! ## The flags -/

/-- The frame holds a page and was translated since it was last taken from the free
ones. -/
def Recent (x : Frames) (i : Nat) : Prop := x.machine.pt.Held i ∧ x.taken i < x.used i

/-- The flags are in the order of the times at which the frames were loaded and
translated. -/
structure Dated (cfg : Config) (x : Frames) : Prop where
  accounted : Accounted x.machine
  past : ∀ i, x.loaded i ≤ x.now ∧ x.taken i ≤ x.now ∧ x.used i ≤ x.now
  fifo : cfg.fifoReplace = true →
    (∀ i, x.machine.pt.Held i → (x.machine.pt.nth i).fifoFlag ≤ intMax) ∧
    Tells x.machine.pt.Held (fun i => (x.machine.pt.nth i).fifoFlag) x.loaded
  lru : cfg.lruReplace = true →
    (∀ i < numPhysPages, (x.machine.pt.nth i).lruFlag ≤ intMax ∧
      ((x.machine.pt.nth i).lruFlag = -1 ∧ x.used i = 0 ∨
        0 ≤ (x.machine.pt.nth i).lruFlag ∧ 0 < x.used i)) ∧
    Tells x.Recent (fun i => (x.machine.pt.nth i).lruFlag) x.used

section
variable {cfg : Config} {x x' : Frames}

theorem Dated.start (hR : cfg.useRPT = true) : Dated cfg (start cfg) := by
  have hreset : ∀ i, (Vm.start cfg).pt.nth i = .reset := fun i => by
    simp only [Vm.start, hR, ite_true, Table.nth, List.getD_eq_getElem?_getD, List.getElem?_replicate]
    split <;> rfl
  have hfree : ∀ i, ¬ (Vm.start cfg).pt.Held i := fun i hi => by
    have := hi.2
    rw [hreset] at this
    cases this
  refine ⟨.start hR, fun _ => ⟨Nat.le_refl _, Nat.le_refl _, Nat.le_refl _⟩, fun _ => ⟨?_, ?_⟩,
    fun _ => ⟨fun i _ => ?_, ?_⟩⟩
  · exact fun i hi => absurd hi (hfree i)
  · exact fun i _ hi => absurd hi (hfree i)
  · rw [show (Frames.start cfg).machine.pt.nth i = .reset from hreset i]
    exact ⟨by decide, .inl ⟨rfl, rfl⟩⟩
  · exact fun i _ hi => absurd hi.1 (hfree i)

/-- Frames become free. -/
theorem Dated.freed (h : Dated cfg x) {reset : Nat → Bool} (hf : Freed x.machine x'.machine reset)
    (hnow : x.now ≤ x'.now) (hloaded : x'.loaded = x.loaded) (htaken : x'.taken = x.taken)
    (hused : ∀ i, x'.used i = if reset i then 0 else x.used i) : Dated cfg x' := by
  have hlen := h.accounted.length
  have hlen' := hf.accounted.length
  -- A frame that still holds a page has its flags.
  have hheld : ∀ i, x'.machine.pt.Held i → reset i = false ∧ x.machine.pt.Held i ∧
      (x'.machine.pt.nth i).fifoFlag = (x.machine.pt.nth i).fifoFlag ∧
      (x'.machine.pt.nth i).lruFlag = (x.machine.pt.nth i).lruFlag := fun i hi => by
    have hlt : i < numPhysPages := hlen' ▸ hi.1
    cases hr : reset i with
    | true =>
      have := hi.2
      rw [hf.entry i hlt hr] at this
      cases this
    | false =>
      obtain ⟨h₁, h₂, h₃⟩ := hf.flags i hlt hr
      exact ⟨rfl, ⟨hlen ▸ hlt, h₃ hi.2⟩, h₁, h₂⟩
  refine ⟨hf.accounted, fun i => ?_, fun hF => ?_, fun hL => ?_⟩
  · obtain ⟨h₁, h₂, h₃⟩ := h.past i
    rw [hloaded, htaken, hused]
    split <;> omega
  · obtain ⟨hmax, htells⟩ := h.fifo hF
    refine ⟨fun i hi => ?_, htells.mono fun i hi => ?_⟩
    · obtain ⟨-, hi, he, -⟩ := hheld i hi
      rw [he]
      exact hmax i hi
    · obtain ⟨-, hi, he, -⟩ := hheld i hi
      exact ⟨hi, he, by rw [hloaded]⟩
  · obtain ⟨hmax, htells⟩ := h.lru hL
    refine ⟨fun i hi => ?_, htells.mono fun i hi => ?_⟩
    · rw [hused]
      cases hr : reset i with
      | true =>
        rw [hf.entry i hi hr]
        exact ⟨by decide, .inl ⟨rfl, rfl⟩⟩
      | false =>
        rw [(hf.flags i hi hr).2.1]
        exact hmax i hi
    · obtain ⟨hr, hh, -, he⟩ := hheld i hi.1
      have hu : x'.used i = x.used i := by rw [hused, hr]; rfl
      have hlt := hi.2
      rw [htaken, hu] at hlt
      exact ⟨⟨hh, hlt⟩, he, hu⟩

/-- The frame `f` is translated. -/
theorem Dated.touched (h : Dated cfg x) {f : Nat} (hf : Touched cfg x.machine x'.machine f)
    (hnow : x'.now = x.now + 1) (hloaded : x'.loaded = x.loaded) (htaken : x'.taken = x.taken)
    (hused : ∀ i, x'.used i = if f = i then x'.now else x.used i) : Dated cfg x' := by
  have hlen := h.accounted.length
  have hin : f < x.machine.pt.length := hlen ▸ hf.inside
  have hsame : x'.machine.pt.length = x.machine.pt.length ∧ ∀ i,
      (x'.machine.pt.nth i).valid = (x.machine.pt.nth i).valid ∧
      (x'.machine.pt.nth i).fifoFlag = (x.machine.pt.nth i).fifoFlag := by
    cases hL : cfg.lruReplace with
    | true =>
      rw [(hf.lru hL).2]
      refine ⟨Table.length_stampLRU .., fun i => ?_⟩
      rw [Table.nth_stampLRU hin]
      split <;> exact ⟨rfl, rfl⟩
    | false =>
      rw [hf.other hL]
      exact ⟨rfl, fun _ => ⟨rfl, rfl⟩⟩
  obtain ⟨hl, hn⟩ := hsame
  have hheld : ∀ i, x'.machine.pt.Held i ↔ x.machine.pt.Held i := fun i => by
    unfold Table.Held
    rw [hl, (hn i).1]
  refine ⟨⟨hl.trans hlen, ?_, ?_, fun i hi => ?_⟩, fun i => ?_, fun hF => ?_, fun hL => ?_⟩
  · rw [hf.bitmap]
    exact h.accounted.wf
  · rw [hf.bitmap]
    exact h.accounted.numBits
  · rw [hf.bitmap, (hn i).1]
    exact h.accounted.bit i hi
  · obtain ⟨h₁, h₂, h₃⟩ := h.past i
    rw [hloaded, htaken, hused]
    split <;> omega
  · obtain ⟨hmax, htells⟩ := h.fifo hF
    refine ⟨fun i hi => ?_, htells.mono fun i hi => ⟨(hheld i).mp hi, (hn i).2, by rw [hloaded]⟩⟩
    rw [(hn i).2]
    exact hmax i ((hheld i).mp hi)
  · obtain ⟨hmax, htells⟩ := h.lru hL
    obtain ⟨hroom, hpt⟩ := hf.lru hL
    have hstamp : ∀ i, x'.machine.pt.nth i = if i = f then { x.machine.pt.nth i with
        lruFlag := x.machine.pt.freshFlag (·.lruFlag) f } else x.machine.pt.nth i := fun i => by
      rw [hpt]
      exact Table.nth_stampLRU hin i
    have hother : ∀ i, i ≠ f → x'.used i = x.used i := fun i hne => by
      rw [hused, if_neg (Ne.symm hne)]
    have hself : x'.used f = x.now + 1 := by rw [hused, if_pos rfl, hnow]
    refine ⟨fun i hi => ?_, htells.touch f (fun i hi hne => ?_) fun i hi hne => ?_⟩
    · by_cases hne : i = f
      · subst hne
        rw [hstamp, if_pos rfl, hself]
        exact ⟨Table.freshFlag_le_iff.mpr ⟨by decide, hroom⟩,
          .inr ⟨Table.freshFlag_nonneg, Nat.succ_pos _⟩⟩
      · rw [hstamp, if_neg hne, hother i hne]
        exact hmax i hi
    · have hlt := hi.2
      rw [htaken, hother i hne] at hlt
      exact ⟨⟨(hheld i).mp hi.1, hlt⟩, by rw [hstamp, if_neg hne], hother i hne⟩
    · have habove : Table.Below (·.lruFlag) x.machine.pt f _ := Table.lt_freshFlag
      have hi' := (hheld i).mp hi.1
      have := (h.past i).2.2
      rw [hstamp, hstamp, if_neg hne, if_pos rfl, hother i hne, hself]
      exact ⟨habove i hi'.1 hne hi'.2, by omega⟩

/-- A page is loaded into the frame `f`. -/
theorem Dated.loaded (h : Dated cfg x) {f : Nat} (hf : Loaded cfg x.machine x'.machine f)
    (hnow : x'.now = x.now + 1)
    (hloaded : ∀ i, x'.loaded i = if f = i then x'.now else x.loaded i)
    (htaken : ∀ i, x'.taken i =
      if f = i ∧ x.machine.mmBitmap.bit i = false then x'.now else x.taken i)
    (hused : x'.used = x.used) : Dated cfg x' := by
  have hlen := h.accounted.length
  have hin : f < numPhysPages := hf.frame.1
  have hbit : x'.machine.mmBitmap.Wf ∧ x'.machine.mmBitmap.numBits = numPhysPages ∧
      ∀ i < numPhysPages, x'.machine.mmBitmap.bit i = if i = f then true else
        x.machine.mmBitmap.bit i := by
    rcases hf.frame.2 with ⟨-, -, hb⟩ | ⟨hfull, -, hb⟩
    · rw [hb]
      exact ⟨h.accounted.wf.put f true, h.accounted.numBits, fun i _ =>
        Bitmap.bit_put (h.accounted.wf.lt (by rw [h.accounted.numBits]; exact hin)) true i⟩
    · rw [hb]
      refine ⟨h.accounted.wf, h.accounted.numBits, fun i hi => ?_⟩
      rw [hfull i hi]
      split <;> rfl
  have hheld : ∀ i, x'.machine.pt.Held i → i ≠ f → x.machine.pt.Held i := fun i hi hne => by
    unfold Table.Held at hi ⊢
    rwa [hf.length, hf.others i hne] at hi
  refine ⟨⟨hf.length.trans hlen, hbit.1, hbit.2.1, fun i hi => ?_⟩, fun i => ?_, fun hF => ?_,
    fun hL => ?_⟩
  · rw [hbit.2.2 i hi]
    split
    · rename_i e
      rw [e, hf.valid]
    · rename_i hne
      rw [hf.others i hne]
      exact h.accounted.bit i hi
  · obtain ⟨h₁, h₂, h₃⟩ := h.past i
    rw [hloaded, htaken, hused]
    refine ⟨?_, ?_, by omega⟩
    · split <;> omega
    · split <;> omega
  · obtain ⟨hmax, htells⟩ := h.fifo hF
    obtain ⟨hroom, habove⟩ := hf.fifo hF
    refine ⟨fun i hi => ?_, htells.touch f (fun i hi hne => ?_) fun i hi hne => ?_⟩
    · by_cases hne : i = f
      · rw [hne]
        exact hroom
      · rw [hf.others i hne]
        exact hmax i (hheld i hi hne)
    · rw [hf.others i hne, hloaded, if_neg (Ne.symm hne)]
      exact ⟨hheld i hi hne, rfl, rfl⟩
    · have := (h.past i).1
      rw [hf.others i hne, hloaded, hloaded, if_neg (Ne.symm hne), if_pos rfl, hnow]
      exact ⟨habove i hne (hheld i hi hne), by omega⟩
  · obtain ⟨hmax, htells⟩ := h.lru hL
    have hflag : ∀ i, (x'.machine.pt.nth i).lruFlag = (x.machine.pt.nth i).lruFlag := fun i => by
      by_cases hne : i = f
      · rw [hne, hf.lru]
      · rw [hf.others i hne]
    refine ⟨fun i hi => ?_, htells.mono fun i hi => ⟨?_, hflag i, by rw [hused]⟩⟩
    · rw [hflag, hused]
      exact hmax i hi
    · have hlt := hi.2
      rw [htaken, hused] at hlt
      by_cases hne : i = f
      · -- A frame that was free is not recent behind this load.
        subst hne
        have hheld' : x.machine.mmBitmap.bit i = true := by
          by_contra hb
          rw [if_pos ⟨rfl, Bool.eq_false_iff.mpr hb⟩] at hlt
          have := (h.past i).2.2
          omega
        rw [if_neg (by simp [hheld'])] at hlt
        exact ⟨⟨hlen ▸ hin, (h.accounted.bit i hin).symm.trans hheld'⟩, hlt⟩
      · rw [if_neg fun hc => hne hc.1.symm] at hlt
        exact ⟨hheld i hi.1 hne, hlt⟩

/-- One operation keeps the order of the flags. -/
theorem Dated.next (hR : cfg.useRPT = true) (h : Dated cfg x) {op : FrameOp × Env}
    (hn : next cfg x op = .ok x') : Dated cfg x' := by
  obtain ⟨⟨s', l⟩, ha, hn⟩ := bind_eq_ok.mp hn
  cases hn
  cases effect_advance hR h.accounted ha with
  | freed hframe hhit hf =>
    refine h.freed hf (Nat.le_succ _) ?_ ?_ fun i => ?_
    · simp [hframe]
    · simp [hframe]
    · simp [hhit]
  | touched f hframe hhit hresets hf =>
    refine h.touched hf rfl ?_ ?_ fun i => ?_
    · simp [hframe]
    · simp [hframe]
    · simp [hhit, hresets]
  | loaded f hframe hhit hresets hf =>
    refine h.loaded hf rfl (fun i => ?_) (fun i => ?_) ?_
    · simp [hframe]
    · simp [hframe]
    · simp [hhit, hresets]

/-- A victim is looked for when every frame holds a page. -/
theorem Dated.evicts (h : Dated cfg x) {op : FrameOp × Env} (he : x.evicts cfg op = true) :
    ∀ i < x.machine.pt.length, x.machine.pt.Held i := by
  obtain ⟨he, -⟩ := Bool.and_eq_true_iff.mp he
  intro i hi
  have hlt : i < numPhysPages := h.accounted.length ▸ hi
  rcases Bitmap.findAndSet_cases h.accounted.wf with ⟨k, -, -, -, hb⟩ | ⟨hfull, -⟩
  · rw [hb] at he
    simp only [Except.toOption, Option.any_some, decide_eq_true_eq] at he
    omega
  · exact ⟨hi, (h.accounted.bit i hlt).symm.trans (hfull i (h.accounted.numBits.symm ▸ hlt))⟩

theorem Dated.victim_lt (h : Dated cfg x) : x.machine.pt.findOneToReplace cfg < numPhysPages := by
  rw [← h.accounted.length]
  exact Table.findOneToReplace_lt cfg (by rw [h.accounted.length]; decide)

theorem reachable_dated (hR : cfg.useRPT = true)
    (h : (system cfg).Reachable x) : Dated cfg x := by
  refine h.invariant (I := Dated cfg) (fun x₀ h₀ => ?_) fun x₁ op x₂ hd hn => ?_
  · rw [h₀]
    exact .start hR
  · exact hd.next hR hn

/-! ## A page of `LoadAThread` at a time -/

theorem exists_advance {s' : Vm} {op : FrameOp × Env} {l : Option Loading}
    (h : (system cfg).Reachable x) (ha : x.advance cfg op = .ok (s', l)) :
    ∃ x', (system cfg).Reachable x' ∧ x'.machine = s' ∧ x'.loading = l := by
  obtain ⟨x', hx'⟩ : ∃ x', next cfg x op = .ok x' ∧ x'.machine = s' ∧ x'.loading = l := by
    rw [next, ha]
    exact ⟨_, rfl, rfl, rfl⟩
  exact ⟨x', .step h hx'.1, hx'.2⟩

/-- The loop of `LoadAThread` is its turns. -/
theorem exists_turns {env : Env} {s' : Vm} {n : Nat} (h : (system cfg).Reachable x) {l : Loading}
    (hl : x.loading = some l) (hn : l.rest = n)
    (hx : x.machine.loadPages cfg env l.tid l.file l.buf l.offset n = .ok s') :
    ∃ x' l', (system cfg).Reachable x' ∧ x'.machine = s' ∧ x'.loading = some l' ∧ l'.tid = l.tid ∧
      l'.rest = 0 := by
  induction n generalizing x l with
  | zero =>
    cases hx
    exact ⟨x, l, h, rfl, hl, rfl, hn⟩
  | succ n ih =>
    obtain ⟨⟨vpn, buf⟩, hv, hx⟩ := bind_eq_ok.mp hx
    obtain ⟨⟨s₁, ppn⟩, hp, hx⟩ := bind_eq_ok.mp hx
    obtain ⟨s₂, h₂, hx⟩ := bind_eq_ok.mp hx
    obtain ⟨l₁, hl₁⟩ : ∃ l₁ : Loading, l₁ = { l with
      buf := buf, offset := l.offset + sizeofInt + pageSize, rest := l.rest - 1 } := ⟨_, rfl⟩
    have hturn : x.machine.loadTurn cfg env l = .ok (s₂, l₁) := by
      simp only [loadTurn, hv, hp, ok_bind] at h₂ ⊢
      rw [h₂, hl₁]
      rfl
    have hadv : x.advance cfg (.page, env) = .ok (s₂, some l₁) := by
      simp only [advance, hl]
      rw [if_neg (by omega), hturn]
      rfl
    obtain ⟨x₁, hr₁, rfl, hloading⟩ := exists_advance h hadv
    obtain ⟨x', l', hr, hm, hl', ht, hz⟩ := ih hr₁ hloading (by rw [hl₁, hn]; rfl) (by
      rw [hl₁]
      exact hx)
    exact ⟨x', l', hr, hm, hl', by rw [ht, hl₁], hz⟩

/-- Every state of the machine is one of the system. -/
theorem exists_frames {s : Vm} (h : (System.ofFun (Vm.start cfg) (Vm.next cfg)).Reachable s) :
    ∃ x, (system cfg).Reachable x ∧ x.machine = s ∧ x.loading = none := by
  induction h with
  | init h₀ =>
    cases h₀
    exact ⟨start cfg, .init rfl, rfl, rfl⟩
  | @step s s' op h hs ih =>
    obtain ⟨x, hr, rfl, hl⟩ := ih
    obtain ⟨op, env⟩ := op
    by_cases hop : ∃ t, op = .restore t ∧ x.machine.enabled (.restore t) = true
    · obtain ⟨t, rfl, hen⟩ := hop
      have hs : Vm.next cfg x.machine (.restore t, env) = .ok s' := hs
      rw [Vm.next, if_pos hen] at hs
      simp only [exec, Vm.restore] at hs
      split at hs <;> [cases hs; skip]
      rename_i f hf
      obtain ⟨s₁, h₁, hs⟩ := bind_eq_ok.mp hs
      cases hs
      obtain ⟨⟨n, buf⟩, hn, h₁⟩ := bind_eq_ok.mp h₁
      have hadv : x.advance cfg (.vm (.restore t), env) =
          .ok (x.machine, some ⟨t, f, buf, sizeofInt, n.toNat⟩) := by
        simp only [advance, hl]
        rw [if_pos hen, hf]
        simp only [hn, ok_bind]
        rfl
      obtain ⟨x₁, hr₁, hm, hl₁⟩ := exists_advance hr hadv
      obtain ⟨x₂, l₂, hr₂, rfl, hl₂, ht, hz⟩ := exists_turns hr₁ hl₁ rfl (by rw [hm]; exact h₁)
      have hend : x₂.advance cfg (.page, env) =
          .ok (x₂.machine.setThread t fun u => { u with saved := none }, none) := by
        simp only [advance, hl₂, hz, ite_true, ht]
        rfl
      exact exists_advance hr₂ hend
    · have hadv : x.advance cfg (.vm op, env) = .ok (s', none) := by
        have hs : Vm.next cfg x.machine (op, env) = .ok s' := hs
        cases op with
        | restore t =>
          have hen : ¬ x.machine.enabled (.restore t) = true := fun hen => hop ⟨t, rfl, hen⟩
          rw [Vm.next, if_neg hen] at hs
          cases hs
          simp only [advance, hl]
          rw [if_neg hen]
          rfl
        | create | run | read | write | exit | suspend =>
          simp only [advance, hl, hs]
          rfl
      exact exists_advance hr hadv

end

/-! ## Page after page -/

/-- A read of the first byte of a page. -/
def readPage (v : Nat) : FrameOp × Env := (.vm (.read (v * pageSize) 1), .blank)

/-- The same thread goes on. -/
structure Passed (x x' : Frames) : Prop where
  loading : x'.loading = none
  threads : x'.machine.threadArray = x.machine.threadArray
  current : x'.machine.currentThread = x.machine.currentThread
  now : x'.now = x.now + 1

section
variable {cfg : Config} {x : Frames}

theorem evicts_iff (h : Dated cfg x) {op : FrameOp × Env} : x.evicts cfg op = true ↔
    (∀ i < numPhysPages, (x.machine.pt.nth i).valid = true) ∧ x.loads cfg op = true := by
  refine ⟨fun he => ⟨fun i hi => ?_, (Bool.and_eq_true_iff.mp he).2⟩, fun ⟨hfull, hl⟩ => ?_⟩
  · exact (h.evicts he i (h.accounted.length ▸ hi)).2
  · rcases Bitmap.findAndSet_cases h.accounted.wf with ⟨k, hk, -, hfree, -⟩ | ⟨-, hfind⟩
    · have hk : k < numPhysPages := h.accounted.numBits ▸ hk
      rw [h.accounted.bit k hk, hfull k hk] at hfree
      cases hfree
    · rw [evicts, hfind, hl]
      rfl

theorem resets_readPage (i v : Nat) : x.resets i (readPage v) = false := rfl

variable (hR : cfg.useRPT = true) (hT : cfg.useTLB = false) (h : Dated cfg x)
  (hx : x.loading = none) {v n : Nat} (hu : User x.machine x.machine.currentThread n)
include hR hT h hx hu

theorem loads_absent (hv : ∀ i < numPhysPages, ¬ x.machine.Maps i v) :
    x.loads cfg (readPage v) = true := by
  simp [loads, readPage, hx, enabled, hu.inUser, Op.access, pageFaults,
    translate_absent hR hT h.accounted.length hv]

/-- A page that no frame has is loaded. -/
theorem next_absent (hv : ∀ i < numPhysPages, ¬ x.machine.Maps i v)
    (hmax : (v : Int) * pageSize ≤ intMax) {B : Int} (hB : -1 ≤ B) (hroom : B < intMax)
    (hflags : cfg.fifoReplace = true → ∀ i < numPhysPages, (x.machine.pt.nth i).valid = true →
      (x.machine.pt.nth i).fifoFlag ≤ B) :
    ∃ x' f, next cfg x (readPage v) = .ok x' ∧ Passed x x' ∧ Loaded cfg x.machine x'.machine f ∧
      x'.machine.Maps f v ∧ (cfg.fifoReplace = true → (x'.machine.pt.nth f).fifoFlag ≤ B + 1) ∧
      (∀ i, x'.loaded i = if f = i then x'.now else x.loaded i) ∧
      (∀ i, x'.taken i = if f = i ∧ x.machine.mmBitmap.bit i = false then x'.now else x.taken i) ∧
      x'.used = x.used := by
  obtain ⟨s', s₁, f, hp, hf, hl, ht, hc, hm, hflag⟩ :=
    exists_pageFaultHandler .blank hR h.accounted hu hmax hB hroom hflags
  have hnext : x.machine.next cfg (.read (v * pageSize) 1, .blank) = .ok s' := by
    unfold Vm.next
    rw [if_pos (show x.machine.enabled (.read (v * pageSize) 1) = true from hu.inUser)]
    simp only [exec, readMem, translate_absent hR hT h.accounted.length hv, ok_bind, exceptionHandler,
      hf]
    rfl
  have hadv : x.advance cfg (readPage v) = .ok (s', none) := by
    simp only [advance, readPage, hx, hnext]
    rfl
  have hframe := frame_eq_some (loads_absent hR hT h hx hu hv) hp
  have hhit : x.translates cfg (readPage v) = none := by
    simp [translates, readPage, hx, enabled, hu.inUser, Op.access, hitFrame,
      translate_absent hR hT h.accounted.length hv]
  refine ⟨_, f, by rw [next, hadv]; rfl, ⟨rfl, ht, hc, rfl⟩, hl, hm, hflag, fun i => ?_, fun i => ?_, ?_⟩
  · simp [hframe]
  · simp [hframe]
  · simp only [resets_readPage, hhit, Bool.false_eq_true, ite_false, reduceCtorEq]

/-- A page of a frame is translated. -/
theorem next_maps {f : Nat} (hv : v < n) (hf : f < numPhysPages) (hm : x.machine.Maps f v)
    (hfirst : ∀ i < f, ¬ x.machine.Maps i v)
    (hroom : cfg.lruReplace = true → x.machine.pt.Below (·.lruFlag) f intMax) :
    x.loads cfg (readPage v) = false ∧ ∃ x', next cfg x (readPage v) = .ok x' ∧ Passed x x' ∧
      Touched cfg x.machine x'.machine f ∧ x'.loaded = x.loaded ∧ x'.taken = x.taken ∧
      ∀ i, x'.used i = if f = i then x'.now else x.used i := by
  obtain ⟨s', hs', ht, hc, hhit⟩ :=
    translate_maps .blank hR hT h.accounted.length hu hv hf hm hfirst hroom
  obtain ⟨f', hhit', htouch⟩ := touched_translate hR h.accounted.length hs'
  obtain rfl : f = f' := Option.some.inj (hhit.symm.trans hhit')
  obtain ⟨data, hdata⟩ : ∃ data, s'.fetch (f * pageSize) 1 = .ok data := by
    refine ⟨_, fetch_eq_ok.mpr ⟨?_, ?_, rfl⟩⟩
    · unfold pageSize
      omega
    · unfold numPhysPages at hf
      unfold memorySize pageSize numPhysPages
      omega
  have hnext : x.machine.next cfg (.read (v * pageSize) 1, .blank) = .ok s' := by
    unfold Vm.next
    rw [if_pos (show x.machine.enabled (.read (v * pageSize) 1) = true from hu.inUser)]
    exact bind_eq_ok.mpr ⟨(s', some (value data)), bind_eq_ok.mpr ⟨_, hs',
      bind_eq_ok.mpr ⟨(), assert_of (.inl rfl), bind_eq_ok.mpr ⟨data, hdata, rfl⟩⟩⟩, rfl⟩
  have hloads : x.loads cfg (readPage v) = false := by
    simp [loads, readPage, hx, enabled, hu.inUser, Op.access, pageFaults, hs']
  have hadv : x.advance cfg (readPage v) = .ok (s', none) := by
    simp only [advance, readPage, hx, hnext]
    rfl
  have htrans : x.translates cfg (readPage v) = some f := by
    simp [translates, readPage, hx, enabled, hu.inUser, Op.access, hhit]
  refine ⟨hloads, _, by rw [next, hadv]; rfl, ⟨rfl, ht, hc, rfl⟩, htouch, ?_, ?_, fun i => ?_⟩
  · simp [frame_eq_none hloads]
  · simp [frame_eq_none hloads]
  · simp only [resets_readPage, htrans, Bool.false_eq_true, ite_false, Option.some.injEq]

end

end Frames

end Nachos.Vm
