import Nachos.Proof.Userprog.InvertedProcess
import Nachos.Proof.Userprog.LinearProcess
import Nachos.Proof.Userprog.Memory

/-!
# Suspension brings the pages back

`pages` are the resident pages of a thread, with their bytes. `SaveAThread`
leaves none of them in memory, and other threads may then use it. `Restores`
says that `LoadAThread` brings back exactly these pages, whatever its buffer
holds and wherever there are free frames. It does so if and only if the number
of every page is short (`restores_iff`): `SaveAThread` cuts off the 0 behind a
number of four or more characters.
-/

namespace Nachos.Vm

/-- The resident pages of a thread, and their bytes. -/
def pages (cfg : Config) (s : Vm) (tid : Nat) : List (Int × List Byte) :=
  if cfg.useRPT then s.contents tid (List.range numPhysPages)
  else tableContents s.mainMemory 0 (s.table tid)

/-- A thread that `SaveAThread` can save: what is resident is in a frame. -/
structure Savable (cfg : Config) (s : Vm) (tid : Nat) : Prop where
  wf : s.mmBitmap.Wf
  numBits : s.mmBitmap.numBits = numPhysPages
  length : cfg.useRPT = true → s.pt.length = numPhysPages
  space : cfg.useRPT = false → ∃ sp, s.space tid = .ok sp
  frames : cfg.useRPT = false → ∀ e ∈ s.table tid, e.valid = true →
    ∃ p < numPhysPages, e.ppn = (p : Nat)

/-- The machine before `LoadAThread`: after `s₁` other threads changed memory and
the tables, but made no page of `tid` resident. No counter of `updateFIFOFlag`
is about to overflow. -/
structure Between (cfg : Config) (stray : Int → TranslationEntry) (tid : Nat) (s₁ s₂ : Vm) : Prop where
  wf : s₂.mmBitmap.Wf
  numBits : s₂.mmBitmap.numBits = numPhysPages
  length : cfg.useRPT = true → s₂.pt.length = numPhysPages
  space : cfg.useRPT = false → (∃ sp, s₂.space tid = .ok sp) ∧
    (∃ cur, s₂.space s₂.currentThread = .ok cur) ∧ (s₂.table tid).length = (s₁.table tid).length
  quiet : ∀ p ∈ s₂.pages cfg tid, p.1 ∈ (s₁.pages cfg tid).map Prod.fst
  counters : cfg.fifoReplace = true → (∀ i, (s₂.pt.nth i).fifoFlag + numPhysPages ≤ intMax) ∧
    ∀ i, (stray i).fifoFlag + numPhysPages ≤ intMax

/-- `LoadAThread` brings the pages of `s` back, whatever its buffer holds. -/
def Restores (cfg : Config) (stray : Int → TranslationEntry) (tid : Nat) (f : List Byte)
    (s s₂ : Vm) : Prop :=
  ∀ env : Env, env.stray = stray → ∃ s₃, s₂.loadAThread cfg env tid f = .ok s₃ ∧
    (s₃.pages cfg tid).Perm (s.pages cfg tid)

section
variable {cfg : Config} {env : Env} {s s' : Vm} {tid : Nat}

/-! ## Saving -/

variable (tid) in
theorem saveRPT_ok {d : Dump} {is : List Nat} (his : ∀ i ∈ is, i < numPhysPages)
    (hw : s.mmBitmap.Wf) (hn : s.mmBitmap.numBits = numPhysPages) (hb : sizeofInt ≤ d.buf.length) :
    ∃ r, saveRPT tid s d d.file.length is = .ok r := by
  induction is generalizing s d with
  | nil => exact ⟨_, rfl⟩
  | cons i is ih =>
    have hi := his i List.mem_cons_self
    have his' : ∀ j ∈ is, j < numPhysPages := fun j hj => his j (List.mem_cons_of_mem _ hj)
    unfold saveRPT
    simp only
    split
    · rw [Bitmap.clear_eq hw (hn ▸ hi), ok_bind]
      obtain ⟨d₁, hd₁⟩ := page_ok d { s with
        pt := s.pt.set i { s.pt.nth i with valid := false }
        mmBitmap := s.mmBitmap.put i false } (s.pt.nth i).vpn hi
      obtain ⟨x, hx, hf, hb₁⟩ := page_spec hb hd₁
      rw [hd₁, ok_bind, show d.file.length + sizeofInt + pageSize = d₁.file.length by
        rw [hf, List.length_append, List.length_append, hx.length, length_frame, Nat.add_assoc]]
      exact ih his' (hw.put i false) hn hb₁
    · exact ih his' hw hn hb

theorem saveLinear_ok {d : Dump} {i : Nat} {pt : Table} (hw : s.mmBitmap.Wf)
    (hn : s.mmBitmap.numBits = numPhysPages) (hb : sizeofInt ≤ d.buf.length)
    (hf : ∀ e ∈ pt, e.valid = true → ∃ p < numPhysPages, e.ppn = (p : Nat)) :
    ∃ r, saveLinear s d d.file.length i pt = .ok r := by
  induction pt generalizing s d i with
  | nil => exact ⟨_, rfl⟩
  | cons e es ih =>
    have hf' := fun e he => hf e (List.mem_cons_of_mem _ he)
    unfold saveLinear
    split
    · rename_i hv
      obtain ⟨p, hp, he⟩ := hf e List.mem_cons_self hv
      rw [he, Bitmap.clear_eq hw (hn ▸ hp), ok_bind]
      simp only
      obtain ⟨d₁, hd₁⟩ := page_ok d { s with mmBitmap := s.mmBitmap.put p false } i hp
      obtain ⟨x, hx, hfile, hb₁⟩ := page_spec hb hd₁
      rw [hd₁, ok_bind, show d.file.length + sizeofInt + pageSize = d₁.file.length by
        rw [hfile, List.length_append, List.length_append, hx.length, length_frame, Nat.add_assoc]]
      obtain ⟨r, hr⟩ := ih (s := { s with mmBitmap := s.mmBitmap.put p false }) (i := i + 1)
        (hw.put p false) hn hb₁ hf'
      rw [hr]
      exact ⟨_, rfl⟩
    · obtain ⟨r, hr⟩ := ih (i := i + 1) hw hn hb hf'
      rw [hr]
      exact ⟨_, rfl⟩

theorem tableContents_invalidate (m : Nat → Byte) (i : Nat) (pt : Table) :
    tableContents m i (invalidate pt) = [] := by
  induction pt generalizing i with
  | nil => rfl
  | cons e es ih => exact ih (i + 1)

/-- What the file of a thread is. -/
def FileOf (f : List Byte) (ps : List (Int × List Byte)) : Prop :=
  ∃ x r, f = x ++ r ∧ Field x ps.length ∧ Records r ps

/-- `SaveAThread` saves every resident page, and none stays. -/
theorem Savable.save (h : Savable cfg s tid) (env : Env) :
    ∃ s₁ f, s.saveAThread cfg env tid = .ok (s₁, f) ∧ s₁.pages cfg tid = [] ∧
      (s₁.table tid).length = (s.table tid).length ∧ FileOf f (s.pages cfg tid) := by
  have hbuf : sizeofInt ≤ env.buf.length := by rw [env.length_buf]; decide
  cases hR : cfg.useRPT with
  | true =>
    have hl := h.length hR
    obtain ⟨d, hd⟩ := number_ok ⟨[], env.buf⟩
      (s.pt.countP fun e => e.tID = (tid : Int) && e.valid : Nat)
    obtain ⟨x, hx, hf, hb⟩ := number_spec hbuf hd
    rw [List.nil_append] at hf
    obtain ⟨⟨s₁, d'⟩, h₁⟩ := saveRPT_ok tid (fun i hi => List.mem_range.mp hi) h.wf h.numBits hb
    obtain ⟨b, pt, r, rfl, -, -, -, hpt, -, hf', hrec⟩ := saveRPT_spec
      (fun i hi => List.mem_range.mp hi) List.nodup_range h.wf h.numBits hl hb h₁
    refine ⟨{ s with mmBitmap := b, pt := pt }, d'.file, ?_, ?_, rfl, ?_⟩
    · simp only [saveAThread, hR, ite_true]
      rw [hf, hx.length] at h₁
      exact bind_eq_ok.mpr ⟨d, hd, bind_eq_ok.mpr ⟨_, h₁, rfl⟩⟩
    · simp only [pages, hR, ite_true, contents, List.map_eq_nil_iff, List.filter_eq_nil_iff]
      intro i hi
      simp only [hpt, hi, true_and]
      split
      · simp
      · simp_all
    · rw [countP_eq_resident hl, ← map_fst_contents, List.length_map] at hx
      simp only [pages, hR, ite_true]
      exact ⟨x, r, by rw [hf', hf], hx, hrec⟩
  | false =>
    obtain ⟨sp, hsp⟩ := h.space hR
    have htab := table_eq hsp
    obtain ⟨d, hd⟩ := number_ok ⟨[], env.buf⟩ (sp.pt.countP fun e => e.valid : Nat)
    obtain ⟨x, hx, hf, hb⟩ := number_spec hbuf hd
    rw [List.nil_append] at hf
    obtain ⟨⟨s₁, d', pt⟩, h₁⟩ := saveLinear_ok (i := 0) h.wf h.numBits hb (htab ▸ h.frames hR)
    obtain ⟨b, r, rfl, -, -, -, rfl, hf', hrec⟩ := saveLinear_spec h.wf hb h₁
    have htab' := table_eq (show (setSpace { s with mmBitmap := b } tid
      { sp with pt := invalidate sp.pt }).space tid = .ok _ by
        rw [space_setSpace (s := { s with mmBitmap := b }) hsp, if_pos rfl])
    refine ⟨setSpace { s with mmBitmap := b } tid { sp with pt := invalidate sp.pt }, d'.file, ?_, ?_,
      ?_, ?_⟩
    · simp only [saveAThread, hR, Bool.false_eq_true, ite_false]
      rw [hf, hx.length] at h₁
      exact bind_eq_ok.mpr ⟨sp, hsp, bind_eq_ok.mpr ⟨d, hd, bind_eq_ok.mpr ⟨_, h₁, rfl⟩⟩⟩
    · simp only [pages, hR, Bool.false_eq_true, ite_false, htab']
      exact tableContents_invalidate _ 0 _
    · rw [htab', htab, invalidate, List.length_map]
    · rw [← length_validPages 0, ← map_fst_tableContents s.mainMemory, List.length_map] at hx
      simp only [pages, hR, Bool.false_eq_true, ite_false, htab]
      exact ⟨x, r, by rw [hf', hf], hx, hrec⟩

/-! ## Loading -/

/-- The loop of `LoadAThread`, for any invariant `R` that one turn keeps: `R vs`
is about a state with the pages `vs` to go. -/
theorem loadPages_perm {R : List Int → Vm → Prop} {pages : Vm → List (Int × List Byte)}
    (hstep : ∀ {s v vs}, R (v :: vs) s → ∀ {f page : List Byte} {addr : Nat},
      Unix.readAt f pageSize addr = .ok page → page.length = pageSize →
      ∃ s₁ k s', s.pageFrame cfg = .ok (s₁, k) ∧ s₁.loadPageFrame cfg env tid v k addr f = .ok s' ∧
        R vs s' ∧ (pages s').Perm ((v, page) :: pages s))
    {r : List Byte} {ps : List (Int × List Byte)} (h : Records r ps)
    (hs : ∀ v ∈ ps.map Prod.fst, Short v) (hR : R (ps.map Prod.fst) s) (pre buf : List Byte) :
    ∃ s', s.loadPages cfg env tid (pre ++ r) buf pre.length ps.length = .ok s' ∧
      (pages s').Perm (ps ++ pages s) := by
  induction h generalizing s pre buf with
  | nil => exact ⟨s, rfl, .refl _⟩
  | @cons x page r v ps hx hp h ih =>
    rw [List.map_cons] at hs hR
    have hnum := readNumber_short hx (hs v List.mem_cons_self) pre buf (page ++ r)
    have hread := Unix.readAt_append (pre ++ x) page r
    rw [hp, List.length_append, hx.length] at hread
    have hfile : pre ++ (x ++ page ++ r) = pre ++ x ++ (page ++ r) := by simp
    have hfile' : pre ++ (x ++ page ++ r) = pre ++ x ++ page ++ r := by simp
    obtain ⟨s₁, k, s₂, h₁, h₂, hR₂, hperm⟩ := hstep hR (hfile' ▸ hread) hp
    obtain ⟨s', h', hperm'⟩ := ih (fun v hv => hs v (List.mem_cons_of_mem _ hv)) hR₂
      (pre ++ x ++ page) (x ++ buf.drop sizeofInt)
    rw [List.length_append, List.length_append, hx.length, hp, ← hfile'] at h'
    refine ⟨s', ?_, hperm'.trans ?_⟩
    · rw [List.length_cons, loadPages]
      refine bind_eq_ok.mpr ⟨_, hfile ▸ hnum, ?_⟩
      exact bind_eq_ok.mpr ⟨_, h₁, bind_eq_ok.mpr ⟨_, h₂, h'⟩⟩
    · exact (hperm.append_left ps).trans List.perm_middle

/-- With nines in the buffer, a number that is not short ends it. -/
theorem loadPages_long {r : List Byte} {ps : List (Int × List Byte)} (h : Records r ps)
    (hs : ∃ v ∈ ps.map Prod.fst, ¬ Short v) (s : Vm) (pre : List Byte) {buf : List Byte}
    (hb : buf.drop sizeofInt = List.replicate 96 57#8) (s' : Vm) :
    s.loadPages cfg env tid (pre ++ r) buf pre.length ps.length ≠ .ok s' := by
  induction h generalizing s pre buf with
  | nil =>
    obtain ⟨v, hv, -⟩ := hs
    cases hv
  | @cons x page r v ps hx hp h ih =>
    intro hload
    have hfile : pre ++ (x ++ page ++ r) = pre ++ x ++ (page ++ r) := by simp
    rw [List.length_cons, loadPages] at hload
    obtain ⟨⟨v', buf'⟩, hnum, hload⟩ := bind_eq_ok.mp hload
    rw [hfile] at hnum
    by_cases hv : Short v
    · rw [readNumber_short hx hv] at hnum
      cases hnum
      obtain ⟨⟨s₁, k⟩, -, hload⟩ := bind_eq_ok.mp hload
      obtain ⟨s₂, -, hload⟩ := bind_eq_ok.mp hload
      have hs' : ∃ v ∈ ps.map Prod.fst, ¬ Short v := by
        obtain ⟨w, hw, hn⟩ := hs
        rcases List.mem_cons.mp hw with rfl | hw
        · exact absurd hv hn
        · exact ⟨w, hw, hn⟩
      have hb' : (x ++ buf.drop sizeofInt).drop sizeofInt = List.replicate 96 57#8 := by
        rw [← hx.length, List.drop_left, hx.length, hb]
      refine ih hs' s₂ (pre ++ x ++ page) hb' ?_
      rw [List.length_append, List.length_append, hx.length, hp]
      simpa using hload
    · rw [readNumber_long hx hv pre _ hb] at hnum
      cases hnum

variable (cfg) in
/-- A free frame is taken. -/
theorem pageFrame_free (hw : s.mmBitmap.Wf) (hn : s.mmBitmap.numBits = numPhysPages)
    (hroom : 0 < s.mmBitmap.free.card) :
    ∃ k < numPhysPages, s.mmBitmap.bit k = false ∧
      (s.mmBitmap.put k true).free.card + 1 = s.mmBitmap.free.card ∧
      s.pageFrame cfg = .ok ({ s with mmBitmap := s.mmBitmap.put k true }, (k : Int)) := by
  rcases Bitmap.findAndSet_cases hw with ⟨k, hk, -, hfree, hfind⟩ | ⟨hfull, -⟩
  · have hmem : k ∈ s.mmBitmap.free := Bitmap.mem_free.mpr ⟨hk, hfree⟩
    refine ⟨k, hn ▸ hk, hfree, ?_, bind_eq_ok.mpr ⟨_, hfind, ?_⟩⟩
    · rw [Bitmap.free_put_true hw hk, Finset.card_erase_add_one hmem]
    · simp only
      rw [if_neg (by omega)]
      rfl
  · obtain ⟨k, hk⟩ := Finset.card_pos.mp hroom
    obtain ⟨hlt, hfree⟩ := Bitmap.mem_free.mp hk
    rw [hfull k hlt] at hfree
    cases hfree

theorem frame_blit (m : Nat → Byte) {k : Nat} {page : List Byte} (hp : page.length = pageSize)
    (p : Nat) : frame (blit m (k * pageSize) page) p = if p = k then page else frame m p := by
  have hbyte : ∀ i < pageSize, blit m (k * pageSize) page (p * pageSize + i) =
      if p = k then (page[i]?).getD 0 else m (p * pageSize + i) := fun i hi => by
    have := @blit_frame m k 0 page (by omega) p ⟨i, hi⟩
    simp only [Nat.add_zero, Nat.zero_le, and_true, Nat.sub_zero] at this
    rw [this]
    split
    · rw [List.getElem?_eq_getElem (by omega)]
      rfl
    · rfl
  unfold frame
  rw [List.map_congr_left fun i hi => hbyte i (List.mem_range.mp hi)]
  split
  · refine List.ext_getElem (by simp [hp]) fun i h₁ h₂ => ?_
    simp [h₂]
  · rfl

/-- `store` of a page into a frame. -/
theorem store_page {k : Nat} (hk : k < numPhysPages) {page : List Byte} (hp : page.length = pageSize) :
    s.store (k * pageSize) page =
      .ok { s with mainMemory := blit s.mainMemory (k * pageSize) page } := by
  have haddr : ((k : Int) * pageSize).toNat = k * pageSize := by
    rw [← Int.natCast_mul, Int.toNat_natCast]
  rw [← haddr]
  refine store_eq_ok.mpr ⟨Int.mul_nonneg (by omega) (by omega), ?_, rfl⟩
  rw [hp]
  unfold memorySize pageSize numPhysPages at *
  omega

theorem length_lt_of_room {n : Nat} (hn : s.mmBitmap.numBits = numPhysPages)
    (h : n + 1 ≤ s.mmBitmap.free.card) : (n : Int) < intMax := by
  have hle := s.mmBitmap.card_free_le
  have hmax : (numPhysPages : Int) < intMax := by decide
  rw [hn] at hle
  omega

/-! ### The inverted table -/

/-- One more page is resident. -/
theorem contents_update {is : List Nat} {k : Nat} (hnd : is.Nodup) (hk : k ∈ is)
    (hother : ∀ i ≠ k, s'.pt.nth i = s.pt.nth i ∧ frame s'.mainMemory i = frame s.mainMemory i)
    (hold : (s.pt.nth k).tID = tid → (s.pt.nth k).valid = false)
    (hnew : (s'.pt.nth k).tID = tid ∧ (s'.pt.nth k).valid = true) :
    (s'.contents tid is).Perm
      (((s'.pt.nth k).vpn, frame s'.mainMemory k) :: s.contents tid is) := by
  obtain ⟨l₁, l₂, rfl⟩ := List.append_of_mem hk
  have happ : ∀ (s : Vm) l, s.contents tid (l₁ ++ l) = s.contents tid l₁ ++ s.contents tid l :=
    fun s l => by simp [contents]
  have hne : ∀ i ∈ l₁ ++ l₂, i ≠ k := by
    rintro i hi rfl
    have := List.nodup_cons.mp (List.nodup_middle.mp hnd)
    exact this.1 hi
  have h₁ : s'.contents tid l₁ = s.contents tid l₁ := contents_congr fun i hi =>
    hother i (hne i (List.mem_append_left l₂ hi))
  have h₂ : s'.contents tid l₂ = s.contents tid l₂ := contents_congr fun i hi =>
    hother i (hne i (List.mem_append_right l₁ hi))
  have hk' : s'.contents tid (k :: l₂) =
      ((s'.pt.nth k).vpn, frame s'.mainMemory k) :: s'.contents tid l₂ := by
    simp [contents, hnew]
  have hk₀ : s.contents tid (k :: l₂) = s.contents tid l₂ := by
    by_cases e : (s.pt.nth k).tID = tid
    · simp [contents, hold e]
    · simp [contents, e]
  rw [happ, happ, hk', hk₀, h₁, h₂]
  exact List.perm_middle

/-- Before the load of the pages `vs` into the inverted table. -/
structure ReadyRPT (cfg : Config) (tid : Nat) (vs : List Int) (s : Vm) : Prop where
  wf : s.mmBitmap.Wf
  numBits : s.mmBitmap.numBits = numPhysPages
  length : s.pt.length = numPhysPages
  room : vs.length ≤ s.mmBitmap.free.card
  used : ∀ i < numPhysPages, (s.pt.nth i).tID = tid → (s.pt.nth i).valid = true →
    s.mmBitmap.bit i = true
  counters : cfg.fifoReplace = true → ∀ i, (s.pt.nth i).valid = true →
    (s.pt.nth i).fifoFlag + vs.length ≤ intMax

theorem ReadyRPT.step (hR : cfg.useRPT = true) {v : Int} {vs : List Int}
    (h : ReadyRPT cfg tid (v :: vs) s) {f page : List Byte} {addr : Nat}
    (hread : Unix.readAt f pageSize addr = .ok page) (hp : page.length = pageSize) :
    ∃ s₁ k s', s.pageFrame cfg = .ok (s₁, k) ∧ s₁.loadPageFrame cfg env tid v k addr f = .ok s' ∧
      ReadyRPT cfg tid vs s' ∧ (s'.contents tid (List.range numPhysPages)).Perm
        ((v, page) :: s.contents tid (List.range numPhysPages)) := by
  have hroom := h.room
  rw [List.length_cons] at hroom
  obtain ⟨k, hk, hfree, hcard, hframe⟩ :=
    pageFrame_free cfg h.wf h.numBits (Nat.lt_of_lt_of_le (Nat.succ_pos _) hroom)
  have hvs := length_lt_of_room h.numBits hroom
  -- The counters of the other entries have room for one more.
  obtain ⟨t₁, t₂, h₁, h₂, hl, hother, hcore, hflag⟩ := Table.load_entry cfg env.stray
    numPhysPages (intMax - vs.length - 1)
    (fun e => { e with tID := tid, vpn := v, valid := true, ppn := k }) (h.length ▸ hk) (by omega)
    (by omega) fun hF j hj hjk hv => by
      rw [Table.entry_eq_nth _ (h.length ▸ hj)] at hv ⊢
      have := h.counters hF j hv
      rw [List.length_cons] at this
      omega
  obtain ⟨hcv, hct, -, hcw, -⟩ := TranslationEntry.of_core hcore
  obtain ⟨s', hs'⟩ : ∃ s' : Vm, s' = { s with
    mmBitmap := s.mmBitmap.put k true, pt := t₂
    mainMemory := blit s.mainMemory (k * pageSize) page } := ⟨_, rfl⟩
  have hpt : s'.pt = t₂ := by rw [hs']
  have hbm : s'.mmBitmap = s.mmBitmap.put k true := by rw [hs']
  have hframes : ∀ p, frame s'.mainMemory p = if p = k then page else frame s.mainMemory p :=
    fun p => by rw [hs', frame_blit _ hp]
  refine ⟨{ s with mmBitmap := s.mmBitmap.put k true }, k, s', hframe, ?_, ?_, ?_⟩
  · simp only [loadPageFrame, hR, ite_true]
    refine bind_eq_ok.mpr ⟨{ s with mmBitmap := s.mmBitmap.put k true, pt := t₂ },
      bind_eq_ok.mpr ⟨t₁, h₁, bind_eq_ok.mpr ⟨t₂, h₂, rfl⟩⟩, bind_eq_ok.mpr ⟨page, hread, ?_⟩⟩
    rw [store_page hk hp, hs']
  · refine ⟨hbm ▸ h.wf.put k true, hbm ▸ h.numBits, by rw [hpt, hl, h.length], by rw [hbm]; omega,
      fun i hi => ?_, fun hF i => ?_⟩
    · rw [hpt, hbm, Bitmap.bit_put (h.wf.lt (h.numBits ▸ hk))]
      split
      · exact fun _ _ => rfl
      · rename_i hik
        rw [hother i hik]
        exact h.used i hi
    · rw [hpt]
      by_cases hik : i = k
      · have := hflag hF
        rw [hik]
        omega
      · rw [hother i hik]
        intro hv
        have := h.counters hF i hv
        rw [List.length_cons] at this
        omega
  · have hold : (s.pt.nth k).tID = tid → (s.pt.nth k).valid = false := fun e => by
      cases hv : (s.pt.nth k).valid with
      | false => rfl
      | true =>
        rw [h.used k hk e hv] at hfree
        cases hfree
    have hperm : (s'.contents tid (List.range numPhysPages)).Perm _ :=
      contents_update List.nodup_range (List.mem_range.mpr hk)
        (fun i hi => ⟨by rw [hpt, hother i hi], by rw [hframes, if_neg hi]⟩) hold
        (by rw [hpt]; exact ⟨hct, hcw⟩)
    rw [hpt, hcv, hframes, if_pos rfl] at hperm
    exact hperm

/-! ### Linear tables -/

theorem tableContents_congr {m m' : Nat → Byte} {pt : Table} (i : Nat)
    (h : ∀ j, (pt.nth j).valid = true →
      frame m' (pt.nth j).ppn.toNat = frame m (pt.nth j).ppn.toNat) :
    tableContents m' i pt = tableContents m i pt := by
  induction pt generalizing i with
  | nil => rfl
  | cons e es ih =>
    have h₀ : e.valid = true → frame m' e.ppn.toNat = frame m e.ppn.toNat := h 0
    rw [tableContents, tableContents, ih (i + 1) fun j => h (j + 1)]
    split
    · rename_i hv
      rw [h₀ hv]
    · rfl

/-- One more page is resident. -/
theorem tableContents_modify {m m' : Nat → Byte} {pt : Table} {n : Nat} (i : Nat)
    {f : TranslationEntry → TranslationEntry} (hn : n < pt.length) (hold : (pt.nth n).valid = false)
    (hnew : (f (pt.nth n)).valid = true)
    (hother : ∀ j ≠ n, (pt.nth j).valid = true →
      frame m' (pt.nth j).ppn.toNat = frame m (pt.nth j).ppn.toNat) :
    (tableContents m' i (pt.modify n f)).Perm
      (((i + n : Nat), frame m' (f (pt.nth n)).ppn.toNat) :: tableContents m i pt) := by
  induction pt generalizing n i with
  | nil => cases hn
  | cons e es ih =>
    cases n with
    | zero =>
      have hold' : e.valid = false := hold
      have hnew' : (f e).valid = true := hnew
      rw [List.modify_zero_cons, tableContents, if_pos hnew', tableContents,
        if_neg (by rw [hold']; decide),
        tableContents_congr (i + 1) fun j => hother (j + 1) (Nat.succ_ne_zero j)]
      exact .refl _
    | succ n =>
      have hs := ih (i + 1) (Nat.lt_of_succ_lt_succ hn) hold hnew fun j hj =>
        hother (j + 1) fun e => hj (Nat.succ.inj e)
      have h₀ : e.valid = true → frame m' e.ppn.toNat = frame m e.ppn.toNat :=
        hother 0 (Nat.succ_ne_zero n).symm
      rw [Nat.add_right_comm] at hs
      rw [List.modify_succ_cons, tableContents, tableContents]
      split
      · rename_i hv
        rw [h₀ hv]
        exact (hs.cons _).trans (.swap ..)
      · exact hs

/-- The same, of a table that differs in one entry. -/
theorem tableContents_update {m m' : Nat → Byte} {pt pt' : Table} {n : Nat} (hn : n < pt.length)
    (hl : pt'.length = pt.length) (hsame : ∀ j ≠ n, pt'.nth j = pt.nth j)
    (hold : (pt.nth n).valid = false) (hnew : (pt'.nth n).valid = true)
    (hother : ∀ j ≠ n, (pt.nth j).valid = true →
      frame m' (pt.nth j).ppn.toNat = frame m (pt.nth j).ppn.toNat) :
    (tableContents m' 0 pt').Perm
      (((n : Int), frame m' (pt'.nth n).ppn.toNat) :: tableContents m 0 pt) := by
  have hmod : pt' = pt.modify n fun _ => pt'.nth n := by
    refine List.ext_getElem (by rw [hl, List.length_modify]) fun i h₁ h₂ => ?_
    have hi := hsame i
    simp only [Table.nth, List.getD_eq_getElem?_getD, List.getElem?_eq_getElem h₁,
      List.getElem?_eq_getElem (hl ▸ h₁), Option.getD_some] at hi
    rw [List.getElem_modify]
    split
    · rename_i e
      subst e
      simp [Table.nth, h₁]
    · rename_i e
      exact hi (Ne.symm e)
  have hperm := tableContents_modify (f := fun _ => pt'.nth n) 0 hn hold hnew hother
  rwa [← hmod, Nat.zero_add] at hperm

/-- The table's part of a load. -/
theorem mapLinear_ok {sp cur : AddrSpace} {n k : Nat} {t₁ t₂ : Table} (hsp : s.space tid = .ok sp)
    (hcur : s.space s.currentThread = .ok cur) (hk : k < numPhysPages)
    (ht₁ : sp.pt.upd n (fun e => { e with vpn := n, ppn := k, valid := true }) = .ok t₁)
    (ht₂ : (if cfg.fifoReplace then t₁.updateFIFOFlag env.stray n cur.program.numPages
      else pure t₁) = .ok t₂) :
    ∃ s', s.mapLinear cfg env tid n k = .ok s' ∧ s'.mmBitmap = s.mmBitmap ∧
      s'.mainMemory = s.mainMemory ∧ s'.table tid = t₂ ∧ (∃ sp', s'.space tid = .ok sp') ∧
      ∃ cur', s'.space s'.currentThread = .ok cur' := by
  have hspace := space_setSpace hsp { sp with pt := t₂ }
  obtain ⟨s₁, hs₁⟩ : ∃ s₁, s₁ = s.setSpace tid { sp with pt := t₂ } := ⟨_, rfl⟩
  rw [← hs₁] at hspace
  have hsp₁ : s₁.space tid = .ok { sp with pt := t₂ } := by rw [hspace, if_pos rfl]
  have hcs : s₁.currentThread = s.currentThread := by rw [hs₁]; rfl
  obtain ⟨cur₁, hcur₁⟩ : ∃ cur₁, s₁.space s₁.currentThread = .ok cur₁ := by
    rw [hspace, hcs]
    split
    · exact ⟨_, rfl⟩
    · exact ⟨cur, hcur⟩
  have hmap : s.mapLinear cfg env tid n k =
      (if (t₂.entry env.stray n).dirty then do
        let cur ← s₁.space s₁.currentThread
        let page ← s₁.fetch (k * pageSize) pageSize
        let vmFile ← Unix.writeAt cur.vmFile page (n * pageSize)
        return s₁.setSpace s₁.currentThread { cur with vmFile := vmFile }
      else return s₁) := by
    simp only [mapLinear, hcur, hsp, ok_bind, ht₁, ht₂, hs₁]
  have hm : s₁.mainMemory = s.mainMemory := by rw [hs₁]; rfl
  have hb : s₁.mmBitmap = s.mmBitmap := by rw [hs₁]; rfl
  rw [hmap]
  split
  · -- A dirty page: the frame goes to the swap file of the running thread.
    have hin : (k * pageSize : Int) + pageSize ≤ memorySize := by
      unfold memorySize pageSize numPhysPages at *
      omega
    have hfetch : s₁.fetch (k * pageSize) pageSize = .ok _ :=
      fetch_eq_ok.mpr ⟨Int.mul_nonneg (by omega) (by omega), hin, rfl⟩
    have hwrite : ∀ src, ∃ file, Unix.writeAt cur₁.vmFile src (n * pageSize) = .ok file := fun src =>
      ⟨_, bind_eq_ok.mpr ⟨(), assert_of (Int.mul_nonneg (by omega) (by omega)), rfl⟩⟩
    obtain ⟨file, hfile⟩ := hwrite _
    have hspace₂ := space_setSpace hcur₁ { cur₁ with vmFile := file }
    obtain ⟨sp₂, hsp₂, hpt⟩ : ∃ sp₂, (s₁.setSpace s₁.currentThread { cur₁ with vmFile := file }).space
        tid = .ok sp₂ ∧ sp₂.pt = t₂ := by
      rw [hspace₂]
      split
      · rename_i e
        rw [← e, hsp₁] at hcur₁
        cases hcur₁
        exact ⟨_, rfl, rfl⟩
      · exact ⟨_, hsp₁, rfl⟩
    refine ⟨_, bind_eq_ok.mpr ⟨cur₁, hcur₁, bind_eq_ok.mpr ⟨_, hfetch, bind_eq_ok.mpr
      ⟨file, hfile, rfl⟩⟩⟩, hb, hm, (table_eq hsp₂).trans hpt, ⟨sp₂, hsp₂⟩, { cur₁ with vmFile := file },
      ?_⟩
    exact (hspace₂ s₁.currentThread).trans (if_pos rfl)
  · exact ⟨s₁, rfl, hb, hm, table_eq hsp₁, ⟨_, hsp₁⟩, cur₁, hcur₁⟩

/-- Before the load of the pages `vs` into the thread's own table. -/
structure ReadyLinear (cfg : Config) (stray : Int → TranslationEntry) (tid : Nat) (vs : List Int)
    (s : Vm) : Prop where
  wf : s.mmBitmap.Wf
  numBits : s.mmBitmap.numBits = numPhysPages
  room : vs.length ≤ s.mmBitmap.free.card
  space : ∃ sp, s.space tid = .ok sp
  current : ∃ cur, s.space s.currentThread = .ok cur
  nodup : vs.Nodup
  pending : ∀ v ∈ vs, ∃ n : Nat, v = n ∧ n < (s.table tid).length ∧
    ((s.table tid).nth n).valid = false
  used : ∀ n, ((s.table tid).nth n).valid = true →
    ∃ p < numPhysPages, ((s.table tid).nth n).ppn = (p : Nat) ∧ s.mmBitmap.bit p = true
  counters : cfg.fifoReplace = true → (∀ n, ((s.table tid).nth n).valid = true →
    ((s.table tid).nth n).fifoFlag + vs.length ≤ intMax) ∧ ∀ i, (stray i).fifoFlag + vs.length ≤ intMax

theorem ReadyLinear.step (hR : cfg.useRPT = false) {v : Int} {vs : List Int}
    (h : ReadyLinear cfg env.stray tid (v :: vs) s) {f page : List Byte} {addr : Nat}
    (hread : Unix.readAt f pageSize addr = .ok page) (hp : page.length = pageSize) :
    ∃ s₁ k s', s.pageFrame cfg = .ok (s₁, k) ∧ s₁.loadPageFrame cfg env tid v k addr f = .ok s' ∧
      ReadyLinear cfg env.stray tid vs s' ∧ (tableContents s'.mainMemory 0 (s'.table tid)).Perm
        ((v, page) :: tableContents s.mainMemory 0 (s.table tid)) := by
  have hroom := h.room
  rw [List.length_cons] at hroom
  obtain ⟨k, hk, hfree, hcard, hframe⟩ :=
    pageFrame_free cfg h.wf h.numBits (Nat.lt_of_lt_of_le (Nat.succ_pos _) hroom)
  have hvs := length_lt_of_room h.numBits hroom
  obtain ⟨n, rfl, hn, hinv⟩ := h.pending v List.mem_cons_self
  obtain ⟨sp, hsp⟩ := h.space
  obtain ⟨cur, hcur⟩ := h.current
  have hused := h.used
  have hpend := h.pending
  have hcount := h.counters
  rw [List.length_cons] at hcount
  rw [table_eq hsp] at hn hinv hused hpend hcount ⊢
  -- The flags are compared over as many entries as the running thread has.
  obtain ⟨t₁, t₂, h₁, h₂, hl, hother, hcore, hflag⟩ := Table.load_entry cfg env.stray
    cur.program.numPages (intMax - vs.length - 1)
    (fun e => { e with vpn := n, ppn := k, valid := true }) hn (by omega) (by omega)
    fun hF j _ _ hv => by
      obtain ⟨hc₁, hc₂⟩ := hcount hF
      by_cases hjl : j < sp.pt.length
      · rw [Table.entry_eq_nth _ hjl] at hv ⊢
        have := hc₁ j hv
        omega
      · have hout : sp.pt.entry env.stray j = env.stray j := by
          simp [Table.entry, Nat.not_lt.mp hjl]
        have := hc₂ j
        rw [hout]
        omega
  obtain ⟨-, -, hcp, hcw, -⟩ := TranslationEntry.of_core hcore
  obtain ⟨s₂, hmap, hb₂, hm₂, htab₂, hsp₂, hcur₂⟩ := mapLinear_ok
    (s := { s with mmBitmap := s.mmBitmap.put k true }) hsp hcur hk h₁ h₂
  obtain ⟨s', hs'⟩ : ∃ s' : Vm, s' = { s₂ with
    mainMemory := blit s₂.mainMemory (k * pageSize) page } := ⟨_, rfl⟩
  have htab : s'.table tid = t₂ := by rw [hs']; exact htab₂
  have hbm : s'.mmBitmap = s.mmBitmap.put k true := by rw [hs']; exact hb₂
  have hframes : ∀ p, frame s'.mainMemory p = if p = k then page else frame s.mainMemory p :=
    fun p => by rw [hs', frame_blit _ hp, hm₂]
  refine ⟨_, k, s', hframe, ?_, ?_, ?_⟩
  · simp only [loadPageFrame, hR, Bool.false_eq_true, ite_false]
    refine bind_eq_ok.mpr ⟨s₂, hmap, bind_eq_ok.mpr ⟨page, hread, ?_⟩⟩
    rw [store_page hk hp, hs']
  · have hnd := List.nodup_cons.mp h.nodup
    refine ⟨hbm ▸ h.wf.put k true, hbm ▸ h.numBits, by rw [hbm]; omega, by rw [hs']; exact hsp₂,
      by rw [hs']; exact hcur₂, hnd.2, fun w hw => ?_, fun i hv => ?_, fun hF => ⟨fun i => ?_, fun i => ?_⟩⟩
    · obtain ⟨i, rfl, hi, hiv⟩ := hpend w (List.mem_cons_of_mem _ hw)
      have hin : i ≠ n := fun e => hnd.1 (e ▸ hw)
      exact ⟨i, rfl, by rw [htab, hl]; exact hi, by rw [htab, hother i hin]; exact hiv⟩
    · rw [htab] at hv ⊢
      rw [hbm]
      by_cases e : i = n
      · rw [e, hcp]
        exact ⟨k, hk, rfl, by rw [Bitmap.bit_put (h.wf.lt (h.numBits ▸ hk)), if_pos rfl]⟩
      · rw [hother i e] at hv ⊢
        obtain ⟨p, hpl, hpe, hpb⟩ := hused i hv
        refine ⟨p, hpl, hpe, ?_⟩
        rw [Bitmap.bit_put (h.wf.lt (h.numBits ▸ hk))]
        split
        · rfl
        · exact hpb
    · rw [htab]
      by_cases e : i = n
      · have := hflag hF
        rw [e]
        omega
      · rw [hother i e]
        intro hv
        have := (hcount hF).1 i hv
        omega
    · have := (hcount hF).2 i
      omega
  · have hfar : ∀ j ≠ n, (sp.pt.nth j).valid = true →
        frame s'.mainMemory (sp.pt.nth j).ppn.toNat = frame s.mainMemory (sp.pt.nth j).ppn.toNat := by
      intro j _ hv
      obtain ⟨p, -, hpe, hpb⟩ := hused j hv
      have hpk : p ≠ k := by
        rintro rfl
        rw [hpb] at hfree
        cases hfree
      rw [hpe, Int.toNat_natCast, hframes, if_neg hpk]
    have hperm := tableContents_update hn hl hother hinv hcw hfar
    rw [hcp, Int.toNat_natCast, hframes, if_pos rfl] at hperm
    rw [htab]
    exact hperm

/-! ## The round trip -/

/-- The buffer of `LoadAThread`, full of nines. -/
def nines (stray : Int → TranslationEntry) : Env := ⟨stray, List.replicate 100 57#8, by decide⟩

theorem pages_rpt (hR : cfg.useRPT = true) (s : Vm) :
    s.pages cfg tid = s.contents tid (List.range numPhysPages) := by
  simp only [pages, hR, ite_true]

theorem pages_linear (hR : cfg.useRPT = false) (s : Vm) :
    s.pages cfg tid = tableContents s.mainMemory 0 (s.table tid) := by
  simp only [pages, hR, Bool.false_eq_true, ite_false]

/-- Nothing of the thread is resident in the inverted table. -/
theorem Between.readyRPT {stray : Int → TranslationEntry} {s₁ s₂ : Vm} {vs : List Int}
    (h : Between cfg stray tid s₁ s₂) (hR : cfg.useRPT = true) (hnone : s₂.pages cfg tid = [])
    (hroom : vs.length ≤ s₂.mmBitmap.free.card) : ReadyRPT cfg tid vs s₂ := by
  have hle := s₂.mmBitmap.card_free_le
  rw [h.numBits] at hle
  refine ⟨h.wf, h.numBits, h.length hR, hroom, fun i hi ht hv => ?_, fun hF i _ => ?_⟩
  · rw [pages_rpt hR, contents, List.map_eq_nil_iff, List.filter_eq_nil_iff] at hnone
    exact absurd (by simp [ht, hv]) (hnone i (List.mem_range.mpr hi))
  · have := (h.counters hF).1 i
    omega

theorem validPages_eq_nil {i : Nat} {pt : Table} (h : validPages i pt = []) (j : Nat) :
    (pt.nth j).valid = false := by
  cases hj : pt[j]? with
  | none => simp [Table.nth, List.getD_eq_getElem?_getD, hj, TranslationEntry.reset]
  | some e =>
    cases hv : e.valid with
    | false => simp [Table.nth, List.getD_eq_getElem?_getD, hj, hv]
    | true =>
      have hm : ((i + j : Nat) : Int) ∈ validPages i pt := mem_validPages.mpr ⟨j, e, rfl, hj, hv⟩
      rw [h] at hm
      cases hm

/-- Nothing of the thread is resident in its own table. -/
theorem Between.readyLinear {stray : Int → TranslationEntry} {s₁ s₂ : Vm} {pt : Table}
    (h : Between cfg stray tid s₁ s₂) (hR : cfg.useRPT = false) (hnone : s₂.pages cfg tid = [])
    (hl : (s₁.table tid).length = pt.length)
    (hroom : (validPages 0 pt).length ≤ s₂.mmBitmap.free.card) :
    ReadyLinear cfg stray tid (validPages 0 pt) s₂ := by
  obtain ⟨hsp, hcur, hlen⟩ := h.space hR
  have hle := s₂.mmBitmap.card_free_le
  rw [h.numBits] at hle
  have hinvalid : ∀ j, ((s₂.table tid).nth j).valid = false := by
    refine validPages_eq_nil (i := 0) ?_
    rw [← map_fst_tableContents s₂.mainMemory, ← pages_linear hR, hnone, List.map_nil]
  refine ⟨h.wf, h.numBits, hroom, hsp, hcur, nodup_validPages 0 pt, fun v hv => ?_, fun n hv => ?_,
    fun hF => ⟨fun n hv => ?_, fun i => ?_⟩⟩
  · obtain ⟨n, e, rfl, he, -⟩ := mem_validPages.mp hv
    rw [Nat.zero_add]
    refine ⟨n, rfl, ?_, hinvalid n⟩
    rw [hlen, hl]
    exact (List.getElem?_eq_some_iff.mp he).1
  · rw [hinvalid n] at hv
    cases hv
  · rw [hinvalid n] at hv
    cases hv
  · have := (h.counters hF).2 i
    omega

variable (cfg tid) in
/-- `LoadAThread` of a file, from its loop on. -/
theorem FileOf.load {f : List Byte} {ps : List (Int × List Byte)} (h : FileOf f ps)
    (hl : Short ps.length) :
    ∃ x r, f = x ++ r ∧ x.length = sizeofInt ∧ Records r ps ∧ ∀ (s : Vm) (env : Env),
      s.loadAThread cfg env tid f =
        s.loadPages cfg env tid (x ++ r) (x ++ env.buf.drop sizeofInt) x.length ps.length := by
  obtain ⟨x, r, rfl, hx, hrec⟩ := h
  refine ⟨x, r, rfl, hx.length, hrec, fun s env => ?_⟩
  have hnum : readNumber (x ++ r) env.buf 0 = .ok ((ps.length : Int), x ++ env.buf.drop sizeofInt) :=
    readNumber_short hx hl [] env.buf r
  rw [loadAThread, hnum, ok_bind, hx.length]
  rfl

/-- One long number is enough. -/
theorem FileOf.not_restores {f : List Byte} (h : FileOf f (s.pages cfg tid))
    (hl : Short (s.pages cfg tid).length) {v : Int} (hv : v ∈ (s.pages cfg tid).map Prod.fst)
    (hn : ¬ Short v) (stray : Int → TranslationEntry) (s₂ : Vm) :
    ¬ Restores cfg stray tid f s s₂ := by
  intro hres
  obtain ⟨s₃, hs₃, -⟩ := hres (nines stray) rfl
  obtain ⟨x, r, rfl, hx, hrec, hload⟩ := h.load cfg tid hl
  rw [hload] at hs₃
  refine loadPages_long hrec ⟨v, hv, hn⟩ s₂ x ?_ s₃ hs₃
  rw [← hx, List.drop_left, hx]
  rfl

/-- `SaveAThread` followed by `LoadAThread`, with other threads in between and
enough free frames: the same pages are resident again, with the same bytes, if
and only if the text of each page's number has at most three characters. -/
theorem restores_iff (h : Savable cfg s tid) (env : Env) :
    ∃ s₁ f, s.saveAThread cfg env tid = .ok (s₁, f) ∧ s₁.pages cfg tid = [] ∧
      ∀ stray s₂, Between cfg stray tid s₁ s₂ →
        (s.pages cfg tid).length ≤ s₂.mmBitmap.free.card →
        (Restores cfg stray tid f s s₂ ↔ ∀ v ∈ (s.pages cfg tid).map Prod.fst, Short v) := by
  obtain ⟨s₁, f, hsave, hnone, hl, hfile⟩ := h.save env
  refine ⟨s₁, f, hsave, hnone, fun stray s₂ hb hroom => ?_⟩
  have hlen : Short (s.pages cfg tid).length := by
    have := s₂.mmBitmap.card_free_le
    rw [hb.numBits] at this
    exact short_of_lt (Nat.lt_of_le_of_lt (Nat.le_trans hroom this) (by decide))
  constructor
  · intro hres v hv
    by_contra hn
    exact hfile.not_restores hlen hv hn stray s₂ hres
  · rintro hs env' rfl
    have hquiet : s₂.pages cfg tid = [] := by
      refine List.eq_nil_iff_forall_not_mem.mpr fun p hp => ?_
      have := hb.quiet p hp
      rw [hnone] at this
      cases this
    have hroom' : ((s.pages cfg tid).map Prod.fst).length ≤ s₂.mmBitmap.free.card := by
      rwa [List.length_map]
    obtain ⟨x, r, rfl, -, hrec, hload⟩ := hfile.load cfg tid hlen
    -- What is loaded comes on top of what is resident, which is nothing.
    obtain ⟨s₃, hs₃, hperm⟩ : ∃ s₃, s₂.loadPages cfg env' tid (x ++ r)
        (x ++ env'.buf.drop sizeofInt) x.length (s.pages cfg tid).length = .ok s₃ ∧
        (s₃.pages cfg tid).Perm (s.pages cfg tid ++ s₂.pages cfg tid) := by
      cases hR : cfg.useRPT with
      | true =>
        simp only [pages_rpt hR] at hrec hs hroom' ⊢
        exact loadPages_perm (R := ReadyRPT cfg tid) (fun hr _ _ _ => hr.step hR) hrec hs
          (hb.readyRPT hR hquiet hroom') x _
      | false =>
        have hready := hb.readyLinear hR hquiet hl (by
          rwa [pages_linear hR, map_fst_tableContents] at hroom')
        rw [← map_fst_tableContents s.mainMemory] at hready
        simp only [pages_linear hR] at hrec hs ⊢
        exact loadPages_perm (R := ReadyLinear cfg env'.stray tid) (fun hr _ _ _ => hr.step hR) hrec hs
          hready x _
    refine ⟨s₃, (hload s₂ env').trans hs₃, ?_⟩
    rwa [hquiet, List.append_nil] at hperm

end

/-- The page of the `i`-th frame. -/
def filledEntry (i : Nat) (p : Nat × Nat) : TranslationEntry :=
  ⟨p.2, p.1, i, true, false, false, false, 0, -1⟩

/-- The first frames have the pages `ps`: each its thread and its number, of eight. The
`i`-th frame is full of `c + i`. -/
def filled (rpt : Bool) (c : Nat) (ps : List (Nat × Nat)) : Vm where
  mmBitmap := (List.range ps.length).foldl (fun b i => b.put i true) (Bitmap.new numPhysPages)
  mainMemory a := BitVec.ofNat 8 (c + a / pageSize)
  pt := if rpt then (List.range numPhysPages).map fun i => (ps[i]?).elim .reset (filledEntry i)
    else []
  tlb := []
  threadArray := (List.range 3).map fun t =>
    let pt := if rpt then [] else (List.range 8).map fun v =>
      (ps.idxOf? (t, v)).elim .reset fun i => filledEntry i (t, v)
    some ⟨some ⟨⟨[], 0, 8⟩, pt, []⟩, none, false⟩
  currentThread := 2

/-- Three pages of thread 1. -/
def threeResident (rpt : Bool) : Vm := filled rpt 7 [(1, 7), (1, 0), (1, 2)]

/-- Two of thread 2. -/
def othersResident (rpt : Bool) : Vm := filled rpt 1 [(2, 0), (2, 1)]

theorem savable_threeResident (rpt : Bool) :
    Savable ⟨false, rpt, true, false⟩ (threeResident rpt) 1 := by
  refine ⟨(((Bitmap.wf_new _).put 0 true).put 1 true).put 2 true, by cases rpt <;> rfl, ?_,
    fun _ => by cases rpt <;> exact ⟨_, rfl⟩, ?_⟩
  · rintro rfl
    decide +kernel
  · rintro rfl
    decide +kernel

theorem between_othersResident (rpt : Bool) {s₁ : Vm}
    (h : (s₁.table 1).length = if rpt then 0 else 8) :
    Between ⟨false, rpt, true, false⟩ (fun _ => .reset) 1 s₁ (othersResident rpt) := by
  have hflags : ∀ e ∈ (othersResident rpt).pt, e.fifoFlag ≤ 0 := by
    cases rpt <;> decide +kernel
  refine ⟨((Bitmap.wf_new _).put 0 true).put 1 true, by cases rpt <;> rfl, ?_, ?_, ?_,
    fun _ => ⟨fun i => ?_, fun _ => by decide⟩⟩
  · rintro rfl
    decide +kernel
  · rintro rfl
    exact ⟨⟨_, rfl⟩, ⟨_, rfl⟩, h.symm⟩
  · have hnone : (othersResident rpt).pages ⟨false, rpt, true, false⟩ 1 = [] := by
      cases rpt <;> decide +kernel
    rw [hnone]
    intro p hp
    cases hp
  · have hflag : ((othersResident rpt).pt.nth i).fifoFlag ≤ 0 := by
      rw [Table.nth, List.getD_eq_getElem?_getD]
      cases e : (othersResident rpt).pt[i]? with
      | none => decide
      | some e' => exact hflags e' (List.mem_of_getElem? e)
    have hmax : (numPhysPages : Int) ≤ intMax := by decide
    omega

/-- They come back, with either page table, when another thread has pages where they
were. -/
theorem restores_iff_three : ∃ (s₁ : Bool → Vm) (f : Bool → List Byte), ∀ rpt,
    (threeResident rpt).saveAThread ⟨false, rpt, true, false⟩ .blank 1 = .ok (s₁ rpt, f rpt) ∧
      Restores ⟨false, rpt, true, false⟩ (fun _ => .reset) 1 (f rpt) (threeResident rpt)
        (othersResident rpt) := by
  choose s₁ f hsave _ h using fun rpt => restores_iff (savable_threeResident rpt) .blank
  refine ⟨s₁, f, fun rpt => ⟨hsave rpt, (h rpt _ _ (between_othersResident rpt ?_) ?_).mpr ?_⟩⟩
  · have hlen : ((threeResident rpt).saveAThread ⟨false, rpt, true, false⟩ .blank 1).toOption.all
        (fun x => (x.1.table 1).length = if rpt then 0 else 8) = true := by
      cases rpt <;> decide +kernel
    rw [hsave] at hlen
    exact of_decide_eq_true hlen
  · cases rpt <;> decide +kernel
  · cases rpt <;> decide +kernel

/-- One page of thread 1, in frame 0 of the inverted table. -/
def oneResident (vpn : Int) : Vm where
  mmBitmap := (Bitmap.new numPhysPages).put 0 true
  mainMemory _ := 7
  pt := (List.replicate numPhysPages .reset).set 0 ⟨vpn, 1, 0, true, false, false, false, 0, -1⟩
  tlb := []
  threadArray := [some ⟨none, none, false⟩, some ⟨some ⟨⟨[], 0, 2000⟩, [], []⟩, none, false⟩]
  currentThread := 0

theorem savable_oneResident (vpn : Int) : Savable ⟨false, true, true, false⟩ (oneResident vpn) 1 :=
  ⟨(Bitmap.wf_new _).put 0 true, rfl, fun _ => by simp [oneResident], by simp, by simp⟩

theorem pages_oneResident (vpn : Int) :
    (oneResident vpn).pages ⟨false, true, true, false⟩ 1 = [(vpn, List.replicate pageSize 7)] := by
  rfl

/-- An empty memory, for any state before it. -/
theorem between_start (s₁ : Vm) :
    Between ⟨false, true, true, false⟩ (fun _ => .reset) 1 s₁ (start ⟨false, true, true, false⟩) where
  wf := Bitmap.wf_new _
  numBits := rfl
  length _ := by simp [start]
  space := by simp
  quiet p hp := by
    rw [show (start ⟨false, true, true, false⟩).pages ⟨false, true, true, false⟩ 1 = [] by rfl] at hp
    cases hp
  counters _ := by
    refine ⟨fun i => ?_, fun _ => by decide⟩
    have : (start ⟨false, true, true, false⟩).pt.nth i = .reset := by
      simp only [start, ite_true, Table.nth, List.getD_eq_getElem?_getD, List.getElem?_replicate]
      split <;> rfl
    rw [this]
    decide

theorem room_start (vpn : Int) : ((oneResident vpn).pages ⟨false, true, true, false⟩ 1).length ≤
    (start ⟨false, true, true, false⟩).mmBitmap.free.card := by
  rw [pages_oneResident, start, Bitmap.card_free_new]
  show 1 ≤ numPhysPages
  decide

/-- Page 1000 does not come back. -/
theorem not_restores_long : ¬ ∀ (cfg : Config) (s : Vm) (tid : Nat), Savable cfg s tid → ∀ env,
    ∃ s₁ f, s.saveAThread cfg env tid = .ok (s₁, f) ∧ ∀ stray s₂, Between cfg stray tid s₁ s₂ →
      (s.pages cfg tid).length ≤ s₂.mmBitmap.free.card → Restores cfg stray tid f s s₂ := by
  intro h
  obtain ⟨s₁, f, hsave, hres⟩ := h _ _ _ (savable_oneResident 1000) .blank
  obtain ⟨s₁', f', hsave', -, -, hfile⟩ := (savable_oneResident 1000).save .blank
  obtain ⟨-, rfl⟩ := Prod.mk.inj (Except.ok.inj (hsave.symm.trans hsave'))
  refine hfile.not_restores (v := 1000) ?_ ?_ (by decide) _ _
    (hres _ _ (between_start s₁) (room_start 1000))
  · rw [pages_oneResident]
    decide
  · rw [pages_oneResident]
    decide

end Nachos.Vm
