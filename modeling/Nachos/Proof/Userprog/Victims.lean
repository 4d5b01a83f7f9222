import Nachos.Proof.Userprog.Frames

/-!
# Replacement of pages in the inverted page table

With `USE_RPT` a page goes to a free frame, or to the one with the least flag. With
`FIFO_REPLACE` the victim was loaded first (`reachable_earliest`), and with
`LRU_REPLACE` no frame was translated longer ago, unless a flag is left from before
(`reachable_leastRecent`).

Both need 128 frames in use before there is a victim. `Filled` and `Revived` say what
holds while a thread reads one page after another.
-/

namespace Nachos.Vm

open Framework Framework.Recency

namespace Frames

/-! ## First in, first out -/

/-- What `findOneToReplace(pt, 0)` should find: every frame holds a page, and the one
that it returns was loaded before the others. -/
structure Earliest (cfg : Config) (x : Frames) : Prop where
  valid : ∀ i < numPhysPages, (x.machine.pt.nth i).valid = true
  inside : x.machine.pt.findOneToReplace cfg < numPhysPages
  first : ∀ j < numPhysPages, j ≠ x.machine.pt.findOneToReplace cfg →
    x.loaded (x.machine.pt.findOneToReplace cfg) < x.loaded j

/-- With `FIFO_REPLACE`, whenever a run looks for a victim, memory is full and the
victim is the frame whose page was loaded first. -/
theorem reachable_earliest {cfg : Config} (hR : cfg.useRPT = true) (hF : cfg.fifoReplace = true)
    (hL : cfg.lruReplace = false) {x : Frames} (h : (system cfg).Reachable x) {op : FrameOp × Env}
    (he : x.evicts cfg op = true) : Earliest cfg x := by
  have hx := reachable_dated hR h
  have hlen := hx.accounted.length
  have hall := hx.evicts he
  obtain ⟨hmax, htells⟩ := hx.fifo hF
  have hflag : Table.victimFlag cfg = fun e => e.fifoFlag := funext fun e => if_pos hF
  refine ⟨fun i hi => (hall i (hlen ▸ hi)).2, hx.victim_lt, fun j hj hne => ?_⟩
  exact Table.Aged.victim_first (by simp [hF, hL]) x.loaded (hflag ▸ htells) hall (hflag ▸ hmax)
    (hlen ▸ hj) hne

/-- `FIFO_REPLACE` only. -/
def fifoConfig : Config := ⟨false, true, true, false⟩

/-- The thread 1 has the pages `0` to `k - 1`, in frames of the same numbers and loaded in
this order. -/
structure Filled (x : Frames) (k : Nat) : Prop where
  dated : Dated fifoConfig x
  loading : x.loading = none
  current : x.machine.currentThread = 1
  user : User x.machine 1 130
  held : ∀ i < k, (x.machine.pt.nth i).valid = true ∧ x.machine.Maps i i ∧
    (x.machine.pt.nth i).fifoFlag ≤ x.now
  free : ∀ i < numPhysPages, k ≤ i → (x.machine.pt.nth i).valid = false ∧
    (x.machine.pt.nth i).tID = -1
  order : ∀ i j, i < j → j < k → x.loaded i < x.loaded j
  clock : x.now ≤ k + 2

section
variable {x : Frames} {k : Nat}

/-- A page behind those in memory is in no frame. -/
theorem Filled.absent (h : Filled x k) {v : Nat} (hv : k ≤ v) :
    ∀ i < numPhysPages, ¬ x.machine.Maps i v := by
  intro i hi ⟨hvpn, htid⟩
  by_cases hk : i < k
  · have := (h.held i hk).2.1.1
    omega
  · have := (h.free i hi (Nat.not_lt.mp hk)).2
    omega

/-- The next page is loaded. -/
theorem Filled.load (h : Filled x k) {v : Nat} (hv : k ≤ v)
    (hmax : v ≤ 2 * numPhysPages) :
    ∃ x' f, next fifoConfig x (readPage v) = .ok x' ∧ Passed x x' ∧
      Loaded fifoConfig x.machine x'.machine f ∧ x'.machine.Maps f v ∧
      (x'.machine.pt.nth f).fifoFlag ≤ x'.now ∧
      (∀ i, x'.loaded i = if f = i then x'.now else x.loaded i) := by
  have hclock := h.clock
  have hflags : ∀ i < numPhysPages, (x.machine.pt.nth i).valid = true →
      (x.machine.pt.nth i).fifoFlag ≤ x.now := fun i hi hvalid => by
    by_cases hlt : i < k
    · exact (h.held i hlt).2.2
    · rw [(h.free i hi (Nat.not_lt.mp hlt)).1] at hvalid
      cases hvalid
  obtain ⟨x', f, hn, hp, hl, hm, hflag, ht, -, -⟩ := next_absent rfl rfl h.dated h.loading
    (h.current ▸ h.user) (h.absent hv) (by unfold pageSize intMax numPhysPages at *; omega)
    (B := x.now) (by omega) (by unfold intMax numPhysPages at *; omega) fun _ => hflags
  have hnow := hp.now
  have hle := hflag rfl
  exact ⟨x', f, hn, hp, hl, hm, by omega, ht⟩

theorem Filled.next (h : Filled x k) (hk : k < numPhysPages) :
    ∃ x', next fifoConfig x (readPage k) = .ok x' ∧ Filled x' (k + 1) := by
  obtain ⟨x', f, hn, hp, hl, hm, hflag, ht⟩ :=
    h.load (Nat.le_refl k) (by omega)
  have hnow := hp.now
  obtain rfl : f = k := hl.eq_free h.dated.accounted hk (fun i hi => (h.held i hi).1)
    (h.free k hk (Nat.le_refl k)).1
  have hother : ∀ i ≠ f, x'.machine.pt.nth i = x.machine.pt.nth i := hl.others
  refine ⟨x', hn, h.dated.next rfl hn, hp.loading, hp.current.trans h.current,
    h.user.congr hp.threads, fun i hi => ?_, fun i hi hle => ?_, fun i j hij hj => ?_, ?_⟩
  · by_cases hne : i = f
    · rw [hne]
      exact ⟨hl.valid, hm, hflag⟩
    · have hold := h.held i (by omega)
      rw [Maps, hp.current, hother i hne]
      exact ⟨hold.1, hold.2.1, by omega⟩
  · rw [hother i (by omega)]
    exact h.free i hi (by omega)
  · have hpast := (h.dated.past i).1
    rw [ht, ht, if_neg (by omega)]
    split
    · omega
    · exact h.order i j hij (by omega)
  · have := h.clock
    omega

theorem exists_filled : ∀ k ≤ numPhysPages, ∃ x, (system fifoConfig).Reachable x ∧ Filled x k
  | 0, _ => by
    obtain ⟨x, hr, hp⟩ := System.exists_reachable (start fifoConfig) (Frames.next fifoConfig)
      [(.vm (.create (some ⟨[], 0, 130⟩)), .blank), (.vm (.run 1), .blank)]
      (p := fun x => x.loading.isNone ∧ x.machine.currentThread = 1 ∧ User x.machine 1 130 ∧
        x.now = 2 ∧ ∀ i < numPhysPages, (x.machine.pt.nth i).valid = false ∧
          (x.machine.pt.nth i).tID = -1) (by decide +kernel)
    obtain ⟨hl, hc, hu, hnow, hfree⟩ := of_decide_eq_true hp
    exact ⟨x, hr, reachable_dated rfl hr, Option.isNone_iff_eq_none.mp hl, hc, hu,
      fun i hi => absurd hi (Nat.not_lt_zero i), fun i hi _ => hfree i hi,
      fun i j _ hj => absurd hj (Nat.not_lt_zero j), by omega⟩
  | k + 1, hk => by
    obtain ⟨x, hr, hx⟩ := exists_filled k (by omega)
    obtain ⟨x', hn, hx'⟩ := hx.next (by omega)
    exact ⟨x', .step hr hn, hx'⟩

theorem Earliest.eq {cfg : Config} (h : Earliest cfg x) {f : Nat} (hf : f < numPhysPages)
    (hfirst : ∀ j < numPhysPages, j ≠ f → x.loaded f < x.loaded j) :
    x.machine.pt.findOneToReplace cfg = f := by
  by_contra hne
  have h₁ := h.first f hf (Ne.symm hne)
  have h₂ := hfirst _ h.inside hne
  omega

/-- Behind the first page that is replaced the second one is next. -/
theorem reachable_earliest_second : ∃ x : Frames, (system ⟨false, true, true, false⟩).Reachable x ∧
    x.evicts ⟨false, true, true, false⟩ (.vm (.read (129 * pageSize) 1), .blank) = true ∧
    x.machine.pt.findOneToReplace ⟨false, true, true, false⟩ = 1 ∧
    Earliest ⟨false, true, true, false⟩ x := by
  obtain ⟨x, hr, hx⟩ := exists_filled numPhysPages (Nat.le_refl _)
  have hvalid : ∀ i < numPhysPages, (x.machine.pt.nth i).valid = true := fun i hi => (hx.held i hi).1
  have he : x.evicts fifoConfig (readPage numPhysPages) = true := (evicts_iff hx.dated).mpr
    ⟨hvalid, loads_absent rfl rfl hx.dated hx.loading (hx.current ▸ hx.user)
      (hx.absent (Nat.le_refl _))⟩
  have hfirst : x.machine.pt.findOneToReplace fifoConfig = 0 :=
    (reachable_earliest rfl rfl rfl hr he).eq (by decide) fun j hj hne =>
      hx.order 0 j (Nat.pos_of_ne_zero hne) hj
  obtain ⟨x', f, hn, hp, hl, hm, -, ht⟩ :=
    hx.load (Nat.le_refl _) (by unfold numPhysPages; omega)
  obtain rfl : f = 0 := by
    rcases hl.frame with ⟨hlt, ⟨-, hfree, -⟩ | ⟨-, hv, -⟩⟩
    · rw [hx.dated.accounted.bit f hlt, hvalid f hlt] at hfree
      cases hfree
    · rw [hv, hfirst]
  -- The page 128 is in the frame of the page 0 now.
  have hr' := hr.step (S := system fifoConfig) hn
  have hd' := reachable_dated rfl hr'
  have hnow := hp.now
  have hvalid' : ∀ i < numPhysPages, (x'.machine.pt.nth i).valid = true := fun i hi => by
    by_cases hne : i = 0
    · rw [hne]
      exact hl.valid
    · rw [hl.others i hne]
      exact hvalid i hi
  have habsent : ∀ i < numPhysPages, ¬ x'.machine.Maps i 129 := fun i hi hi' => by
    have hvpn := hi'.1
    by_cases hne : i = 0
    · have := hm.1
      rw [hne, this] at hvpn
      cases hvpn
    · rw [hl.others i hne, (hx.held i hi).2.1.1] at hvpn
      unfold numPhysPages at hi
      omega
  have hu' : User x'.machine x'.machine.currentThread 130 := by
    rw [hp.current, hx.current]
    exact hx.user.congr hp.threads
  have he' : x'.evicts fifoConfig (readPage 129) = true := (evicts_iff hd').mpr
    ⟨hvalid', loads_absent rfl rfl hd' hp.loading hu' habsent⟩
  have hE := reachable_earliest rfl rfl rfl hr' he'
  refine ⟨x', hr', he', hE.eq (by decide) fun j hj hne => ?_, hE⟩
  rw [ht, ht, if_neg (by omega)]
  split
  · have := (hx.dated.past 1).1
    omega
  · exact hx.order 1 j (by omega) hj

end

/-! ## Least recently used -/

/-- What the victim should be with `LRU_REPLACE`: no other frame was translated longer
ago. -/
def LeastRecent (cfg : Config) (x : Frames) (op : FrameOp × Env) : Prop :=
  x.evicts cfg op = true → ∀ j < numPhysPages, x.used (x.machine.pt.findOneToReplace cfg) ≤ x.used j

/-- When a victim is looked for, no frame has a flag from before it was taken from the
free ones. -/
def Stamped (cfg : Config) (x : Frames) (op : FrameOp × Env) : Prop :=
  x.evicts cfg op = true → ∀ i < numPhysPages,
    (x.machine.pt.nth i).lruFlag = -1 ∨ x.taken i < x.used i

instance (cfg : Config) (x : Frames) (op : FrameOp × Env) : Decidable (LeastRecent cfg x op) :=
  inferInstanceAs (Decidable (_ → ∀ j < _, _))

instance (cfg : Config) (x : Frames) (op : FrameOp × Env) : Decidable (Stamped cfg x op) :=
  inferInstanceAs (Decidable (_ → ∀ i < _, _))

/-- In every run in which no victim is looked for while a frame has a flag from before,
no frame was translated longer ago than the victim. -/
theorem reachable_leastRecent {cfg : Config} (hR : cfg.useRPT = true) (hF : cfg.fifoReplace = false)
    (hL : cfg.lruReplace = true) {x : Frames} (h : ((system cfg).restrict (Stamped cfg)).Reachable x)
    {op : FrameOp × Env} (hc : Stamped cfg x op) : LeastRecent cfg x op := by
  intro he j hj
  have hx := reachable_dated hR h.of_restrict
  have hlen := hx.accounted.length
  have hall := hx.evicts he
  obtain ⟨hmax, htells⟩ := hx.lru hL
  have hv := hx.victim_lt
  have hflag : Table.victimFlag cfg = fun e => e.lruFlag := funext fun e => if_neg (by simp [hF])
  have hleast : (x.machine.pt.nth (x.machine.pt.findOneToReplace cfg)).lruFlag ≤
      (x.machine.pt.nth j).lruFlag := by
    have hone : cfg.fifoReplace ≠ cfg.lruReplace := by simp [hF, hL]
    have hmost : ∀ e ∈ x.machine.pt, Table.victimFlag cfg e ≤ intMax := fun e he => by
      obtain ⟨i, hi, rfl⟩ := Table.mem_iff_nth.mp he
      rw [hflag]
      exact (hmax i (hlen ▸ hi)).1
    have := Table.findOneToReplace_least hone hmost (Table.mem_iff_nth.mpr ⟨j, hlen ▸ hj, rfl⟩)
    rwa [hflag] at this
  rcases (hmax _ hv).2 with ⟨-, hz⟩ | ⟨hnn, -⟩
  · rw [hz]
    exact Nat.zero_le _
  · -- Neither flag is that of a frame which was reset.
    have hrecent : ∀ i < numPhysPages, 0 ≤ (x.machine.pt.nth i).lruFlag → x.Recent i :=
      fun i hi hpos => ⟨hall i (hlen ▸ hi), (hc he i hi).resolve_left (by omega)⟩
    by_cases hne : j = x.machine.pt.findOneToReplace cfg
    · rw [← hne]
    · exact Nat.le_of_lt (htells.first (hrecent _ hv hnn) (hrecent j hj (by omega)) hne
        (Int.not_lt.mpr hleast))

/-- `USE_RPT` and `LRU_REPLACE`. -/
def lruConfig : Config := ⟨false, true, false, true⟩

/-- The access that looks for a victim. -/
def lastPage : FrameOp × Env := (.vm (.read (127 * pageSize) 1), .blank)

section
variable {cfg : Config} {x : Frames} {op : FrameOp × Env}

theorem stamped_of_not_evicts (h : ¬ x.evicts cfg op = true) : Stamped cfg x op :=
  fun he => absurd he h

/-- A switch to another thread. -/
theorem next_run (hT : cfg.useTLB = false) (hx : x.loading = none)
    (hr : x.machine.runnable x.machine.currentThread = true) {t : Nat} (ht : x.machine.runnable t = true) :
    next cfg x (.vm (.run t), .blank) =
      .ok { x with machine := { x.machine with currentThread := t }, now := x.now + 1 } := by
  obtain ⟨u, hu, -, hex⟩ := runnable_iff.mp hr
  have hrun : x.machine.run cfg t = { x.machine with currentThread := t } := by
    simp only [Vm.run, hT, Bool.false_eq_true, ite_false, hu, Option.any_some, hex]
  have hadv : x.advance cfg (.vm (.run t), .blank) = .ok ({ x.machine with currentThread := t }, none) := by
    simp only [advance, hx, Vm.next, enabled, ht, ite_true, exec, hrun]
    rfl
  have hframe : x.frame cfg (.vm (.run t), .blank) = none :=
    frame_eq_none (by simp [loads, Op.access])
  have hhit : x.translates cfg (.vm (.run t), .blank) = none := by simp [translates, Op.access]
  rw [next, hadv]
  simp [hframe, hhit, hx, resets]

theorem victim_eq (h : Dated lruConfig x) {f : Nat} (hf : f < numPhysPages)
    (hleast : ∀ i < numPhysPages, i ≠ f → (x.machine.pt.nth f).lruFlag < (x.machine.pt.nth i).lruFlag) :
    x.machine.pt.findOneToReplace lruConfig = f := by
  by_contra hne
  have hlen := h.accounted.length
  have hmost : ∀ e ∈ x.machine.pt, Table.victimFlag lruConfig e ≤ intMax := fun e he => by
    obtain ⟨i, hi, rfl⟩ := Table.mem_iff_nth.mp he
    exact ((h.lru rfl).1 i (hlen ▸ hi)).1
  have hle : (x.machine.pt.nth (x.machine.pt.findOneToReplace lruConfig)).lruFlag ≤
      (x.machine.pt.nth f).lruFlag :=
    Table.findOneToReplace_least (by decide) hmost (Table.mem_iff_nth.mpr ⟨f, hlen ▸ hf, rfl⟩)
  have := hleast _ h.victim_lt hne
  omega

/-- The thread 2 has the pages `0` to `m - 1`, in the frames behind that of the thread 1,
whose flag is left from before. -/
structure Revived (x : Frames) (m : Nat) : Prop where
  reachable : ((system lruConfig).restrict (Stamped lruConfig)).Reachable x
  pos : 0 < m
  loading : x.loading = none
  current : x.machine.currentThread = 2
  users : User x.machine 1 128 ∧ User x.machine 2 128
  back : (x.machine.pt.nth 0).valid = true ∧ (x.machine.pt.nth 0).vpn = 0 ∧
    (x.machine.pt.nth 0).tID = 1
  held : ∀ i < m, (x.machine.pt.nth (i + 1)).valid = true ∧ x.machine.Maps (i + 1) i ∧
    x.taken (i + 1) < x.used (i + 1) ∧ x.used 0 < x.used (i + 1)
  free : ∀ i < numPhysPages, m < i → (x.machine.pt.nth i).valid = false ∧
    (x.machine.pt.nth i).tID = -1
  flags : ∀ i ≤ m, (x.machine.pt.nth i).lruFlag ≤ x.now
  least : ∀ i ≤ m, i ≠ 1 → (x.machine.pt.nth 1).lruFlag < (x.machine.pt.nth i).lruFlag
  clock : x.now ≤ 30 + 2 * m

variable {m : Nat}

theorem Revived.dated (h : Revived x m) : Dated lruConfig x := reachable_dated rfl h.reachable.of_restrict

theorem Revived.user (h : Revived x m) : User x.machine x.machine.currentThread 128 := by
  rw [h.current]
  exact h.users.2

theorem Revived.absent (h : Revived x m) {v : Nat} (hv : m ≤ v) :
    ∀ i < numPhysPages, ¬ x.machine.Maps i v := by
  intro i hi ⟨hvpn, htid⟩
  rw [h.current] at htid
  cases i with
  | zero =>
    have := h.back.2.2
    omega
  | succ i =>
    by_cases hlt : i < m
    · have := (h.held i hlt).2.1.1
      omega
    · have := (h.free (i + 1) hi (by omega)).2
      omega

/-- The next page is loaded, and then read. -/
theorem Revived.next (h : Revived x m) (hm : m + 1 < numPhysPages) :
    ∃ x', Revived x' (m + 1) := by
  have hclock := h.clock
  obtain ⟨x₁, f, hn₁, hp₁, hl, hmap, -, -, htaken₁, hused₁⟩ := next_absent rfl rfl h.dated h.loading
    h.user (h.absent (Nat.le_refl m)) (by unfold pageSize intMax numPhysPages at *; omega) (B := -1)
    (by decide) (by decide) fun hF => by cases hF
  have hvalid : ∀ i < m + 1, (x.machine.pt.nth i).valid = true := fun i hi => by
    cases i with
    | zero => exact h.back.1
    | succ i => exact (h.held i (by omega)).1
  have hfree := (h.free (m + 1) hm (by omega)).1
  obtain rfl : f = m + 1 := hl.eq_free h.dated.accounted hm hvalid hfree
  have hother₁ := hl.others
  have hstamped : Stamped lruConfig x (readPage m) := stamped_of_not_evicts fun he => by
    rw [((evicts_iff h.dated).mp he).1 (m + 1) hm] at hfree
    cases hfree
  have hr₁ : ((system lruConfig).restrict (Stamped lruConfig)).Reachable x₁ :=
    .step h.reachable ⟨hstamped, hn₁⟩
  have hd₁ := reachable_dated rfl hr₁.of_restrict
  have hu₁ : User x₁.machine x₁.machine.currentThread 128 := by
    rw [hp₁.current]
    exact h.user.congr hp₁.threads
  -- The frame is not among those that were in use.
  have hfirst : ∀ i < m + 1, ¬ x₁.machine.Maps i m := fun i hi hi' => by
    rw [Maps, hother₁ i (by omega), hp₁.current] at hi'
    exact h.absent (Nat.le_refl m) i (by omega) hi'
  have hflags₁ : ∀ i ≤ m, (x₁.machine.pt.nth i).lruFlag ≤ x.now := fun i hi => by
    rw [hother₁ i (by omega)]
    exact h.flags i hi
  have hbelow : x₁.machine.pt.Below (·.lruFlag) (m + 1) (x.now + 1) := fun j hj hne hv => by
    have hlt : j < numPhysPages := hd₁.accounted.length ▸ hj
    by_cases hle : j ≤ m
    · exact Int.lt_add_one_of_le (hflags₁ j hle)
    · rw [hother₁ j hne, (h.free j hlt (by omega)).1] at hv
      cases hv
  have hroom : x₁.machine.pt.Below (·.lruFlag) (m + 1) intMax := fun j hj hne hv => by
    have := hbelow j hj hne hv
    unfold intMax numPhysPages at *
    omega
  obtain ⟨hloads, x₂, hn₂, hp₂, ht, -, htaken₂, hused₂⟩ := next_maps rfl rfl hd₁ hp₁.loading hu₁
    (by unfold numPhysPages at hm; omega) hm hmap hfirst fun _ => hroom
  have hstamped₁ : Stamped lruConfig x₁ (readPage m) := stamped_of_not_evicts fun he => by
    rw [((evicts_iff hd₁).mp he).2] at hloads
    cases hloads
  have hr₂ : ((system lruConfig).restrict (Stamped lruConfig)).Reachable x₂ :=
    .step hr₁ ⟨hstamped₁, hn₂⟩
  have hnow₁ := hp₁.now
  have hnow₂ := hp₂.now
  obtain ⟨hfresh, hpt⟩ := ht.lru rfl
  have hlt : m + 1 < x₁.machine.pt.length := hd₁.accounted.length ▸ hm
  have hother₂ : ∀ i ≠ m + 1, x₂.machine.pt.nth i = x.machine.pt.nth i := fun i hi => by
    rw [hpt, Table.nth_stampLRU hlt, if_neg hi, hother₁ i hi]
  have hnew : x₂.machine.pt.nth (m + 1) = { x₁.machine.pt.nth (m + 1) with
      lruFlag := x₁.machine.pt.freshFlag (·.lruFlag) (m + 1) } := by
    rw [hpt, Table.nth_stampLRU hlt, if_pos rfl]
  have htimes : ∀ i ≠ m + 1, x₂.taken i = x.taken i ∧ x₂.used i = x.used i := fun i hi => by
    rw [htaken₂, htaken₁, hused₂, hused₁, if_neg fun hc => hi hc.1.symm, if_neg (Ne.symm hi)]
    exact ⟨rfl, rfl⟩
  refine ⟨x₂, hr₂, Nat.succ_pos m, hp₂.loading, (hp₂.current.trans hp₁.current).trans h.current,
    ⟨(h.users.1.congr hp₁.threads).congr hp₂.threads, (h.users.2.congr hp₁.threads).congr hp₂.threads⟩,
    ?_, fun i hi => ?_, fun i hi hle => ?_, fun i hi => ?_, fun i hi hne => ?_, ?_⟩
  · rw [hother₂ 0 (by omega)]
    exact h.back
  · have hzero := (htimes 0 (by omega)).2
    by_cases hne : i = m
    · have htaken := (hd₁.past (m + 1)).2.1
      have hused := (h.dated.past 0).2.2
      rw [hne, Maps, hnew, hp₂.current, hzero, htaken₂, hused₂, if_pos rfl]
      exact ⟨hl.valid, hmap, by omega, by omega⟩
    · obtain ⟨hv, hm', hlt'⟩ := h.held i (by omega)
      obtain ⟨ht', hu'⟩ := htimes (i + 1) (by omega)
      rw [Maps, hother₂ (i + 1) (by omega), hp₂.current, hp₁.current, hzero, ht', hu']
      exact ⟨hv, hm', hlt'⟩
  · rw [hother₂ i (by omega)]
    exact h.free i hi (by omega)
  · by_cases hne : i = m + 1
    · have hle : x₁.machine.pt.freshFlag (·.lruFlag) (m + 1) ≤ x.now + 1 :=
        Table.freshFlag_le_iff.mpr ⟨by omega, hbelow⟩
      rw [hne, hnew]
      show x₁.machine.pt.freshFlag (·.lruFlag) (m + 1) ≤ x₂.now
      omega
    · have := h.flags i (by omega)
      rw [hother₂ i hne]
      omega
  · have hpos := h.pos
    rw [hother₂ 1 (by omega)]
    by_cases hlast : i = m + 1
    · have habove : Table.Below (·.lruFlag) x₁.machine.pt (m + 1) _ := Table.lt_freshFlag
      have hbest := habove 1 (by omega) (by omega)
      rw [hother₁ 1 (by omega)] at hbest
      rw [hlast, hnew]
      exact hbest (hvalid 1 (by omega))
    · rw [hother₂ i hlast]
      exact h.least i (by omega) hne
  · omega

/-- Two threads use a page each, the first one is suspended with the higher flag, the
second one goes on, and the first one is restored to its old frame. -/
def reviveRun : List (FrameOp × Env) :=
  let p : Program := ⟨[], 0, 128⟩
  let before : List Op := [.create (some p), .create (some p), .run 1, .read 0 1, .read 0 1, .run 2,
    .read 0 1, .read 0 1, .run 1, .read 0 1, .run 2, .suspend 1, .read 0 1, .restore 1]
  let ops : List FrameOp := before.map .vm ++ [.page, .page]
  ops.map fun op => (op, .blank)

theorem exists_revived_first : ∃ x, Revived x 1 := by
  obtain ⟨x, hr, hp⟩ := System.exists_reachable_guarded (start lruConfig) (Frames.next lruConfig)
    (Stamped lruConfig) reviveRun
    (p := fun x => (x.loading.isNone ∧ x.machine.currentThread = 2 ∧ User x.machine 1 128 ∧
      User x.machine 2 128 ∧ x.now ≤ 32) ∧
      ((x.machine.pt.nth 0).valid = true ∧ (x.machine.pt.nth 0).vpn = 0 ∧
        (x.machine.pt.nth 0).tID = 1) ∧
      ((x.machine.pt.nth 1).valid = true ∧ x.machine.Maps 1 0 ∧ x.taken 1 < x.used 1 ∧
        x.used 0 < x.used 1) ∧
      (∀ i < numPhysPages, 1 < i → (x.machine.pt.nth i).valid = false ∧
        (x.machine.pt.nth i).tID = -1) ∧
      (x.machine.pt.nth 0).lruFlag ≤ x.now ∧
      (x.machine.pt.nth 1).lruFlag < (x.machine.pt.nth 0).lruFlag) (by decide +kernel)
  obtain ⟨⟨hl, hc, hu₁, hu₂, hnow⟩, hback, hheld, hfree, hflag, hleast⟩ := of_decide_eq_true hp
  refine ⟨x, hr, Nat.one_pos, Option.isNone_iff_eq_none.mp hl, hc, ⟨hu₁, hu₂⟩, hback, fun i hi => ?_,
    hfree, fun i hi => ?_, fun i hi hne => ?_, hnow⟩
  · obtain rfl : i = 0 := by omega
    exact hheld
  · obtain rfl | rfl : i = 0 ∨ i = 1 := by omega
    · exact hflag
    · omega
  · obtain rfl : i = 0 := by omega
    exact hleast

theorem exists_behind : ∀ m, m + 1 < numPhysPages → ∃ x, Revived x (m + 1)
  | 0, _ => exists_revived_first
  | m + 1, hm => by
    obtain ⟨x, hx⟩ := exists_behind m (by omega)
    exact hx.next hm

/-- Memory is full. -/
theorem Revived.valid (h : Revived x 127) : ∀ i < numPhysPages, (x.machine.pt.nth i).valid = true := by
  intro i hi
  cases i with
  | zero => exact h.back.1
  | succ i => exact (h.held i (Nat.succ_lt_succ_iff.mp hi)).1

theorem stamped_run (x : Frames) (t : Nat) : Stamped lruConfig x (.vm (.run t), .blank) :=
  stamped_of_not_evicts fun he => by simp [evicts, loads, Op.access] at he

/-- The first thread goes back to its page. -/
theorem Revived.retouched (h : Revived x 127) : ∃ y : Frames,
    ((system lruConfig).restrict (Stamped lruConfig)).Reachable y ∧ y.loading = none ∧
    y.machine.threadArray = x.machine.threadArray ∧ y.machine.currentThread = 2 ∧
    y.machine.pt = x.machine.pt.stampLRU 0 ∧ y.taken = x.taken ∧ x.now < y.used 0 ∧
    ∀ i ≠ 0, y.used i = x.used i := by
  obtain ⟨x₁, hx₁⟩ : ∃ x₁ : Frames, x₁ = { x with
    machine := { x.machine with currentThread := 1 }, now := x.now + 1 } := ⟨_, rfl⟩
  have hn₁ : Frames.next lruConfig x (.vm (.run 1), .blank) = .ok x₁ := by
    rw [hx₁]
    exact next_run rfl h.loading h.user.1 h.users.1.1
  have hr₁ : ((system lruConfig).restrict (Stamped lruConfig)).Reachable x₁ :=
    .step h.reachable ⟨stamped_run x 1, hn₁⟩
  have hd₁ := reachable_dated rfl hr₁.of_restrict
  have hu₁ : User x₁.machine x₁.machine.currentThread 128 := by
    rw [hx₁]
    exact h.users.1.congr rfl
  have hroom : x₁.machine.pt.Below (·.lruFlag) 0 intMax := fun j hj _ _ => by
    have hj : j < numPhysPages := hd₁.accounted.length ▸ hj
    have hflag := h.flags j (Nat.le_of_lt_succ hj)
    have hclock := h.clock
    rw [hx₁]
    show (x.machine.pt.nth j).lruFlag < intMax
    unfold intMax
    omega
  obtain ⟨hloads, x₂, hn₂, hp₂, ht, -, htaken, hused⟩ := next_maps (v := 0) (f := 0) rfl rfl hd₁
    (by rw [hx₁]; exact h.loading) hu₁ (by decide) (by decide) (by rw [hx₁]; exact h.back.2)
    (fun i hi => absurd hi (Nat.not_lt_zero i)) fun _ => hroom
  have hstamped : Stamped lruConfig x₁ (readPage 0) := stamped_of_not_evicts fun he => by
    rw [((evicts_iff hd₁).mp he).2] at hloads
    cases hloads
  have hr₂ : ((system lruConfig).restrict (Stamped lruConfig)).Reachable x₂ :=
    .step hr₁ ⟨hstamped, hn₂⟩
  have hthreads : x₂.machine.threadArray = x.machine.threadArray := by rw [hp₂.threads, hx₁]
  have hcurrent : x₂.machine.currentThread = 1 := by rw [hp₂.current, hx₁]
  have hn₃ : Frames.next lruConfig x₂ (.vm (.run 2), .blank) = .ok { x₂ with
      machine := { x₂.machine with currentThread := 2 }, now := x₂.now + 1 } := by
    refine next_run rfl hp₂.loading ?_ (h.users.2.congr hthreads).1
    rw [hcurrent]
    exact (h.users.1.congr hthreads).1
  refine ⟨_, .step hr₂ ⟨stamped_run x₂ 2, hn₃⟩, hp₂.loading, hthreads, rfl, ?_, ?_, ?_, fun i hi => ?_⟩
  · have := (ht.lru rfl).2
    rwa [hx₁] at this
  · rwa [hx₁] at htaken
  · have hnow : x₁.now = x.now + 1 := by rw [hx₁]
    show x.now < x₂.used 0
    rw [hused, if_pos rfl, hp₂.now, hnow]
    omega
  · show x₂.used i = x.used i
    rw [hused, if_neg (Ne.symm hi), hx₁]

theorem Revived.evicts (h : Revived x 127) : x.evicts lruConfig lastPage = true :=
  (evicts_iff h.dated).mpr
    ⟨h.valid, loads_absent rfl rfl h.dated h.loading h.user (h.absent (Nat.le_refl 127))⟩

theorem Revived.victim (h : Revived x 127) : x.machine.pt.findOneToReplace lruConfig = 1 :=
  victim_eq h.dated (by decide) fun i hi hne => h.least i (Nat.le_of_lt_succ hi) hne

/-- Behind that no flag is from before, and the victim is the frame that was translated
longest ago. -/
theorem Revived.returned (h : Revived x 127) : ∃ y : Frames,
    ((system lruConfig).restrict (Stamped lruConfig)).Reachable y ∧
    y.evicts lruConfig lastPage = true ∧ y.machine.pt.findOneToReplace lruConfig = 1 ∧
    Stamped lruConfig y lastPage := by
  obtain ⟨y, hr, hl, hthreads, hcurrent, hpt, htaken, hzero, hused⟩ := h.retouched
  have hd := reachable_dated rfl hr.of_restrict
  have hlt : 0 < x.machine.pt.length := by
    rw [h.dated.accounted.length]
    decide
  have hother : ∀ i ≠ 0, y.machine.pt.nth i = x.machine.pt.nth i := fun i hi => by
    rw [hpt, Table.nth_stampLRU hlt, if_neg hi]
  have hnew : y.machine.pt.nth 0 = { x.machine.pt.nth 0 with
      lruFlag := x.machine.pt.freshFlag (·.lruFlag) 0 } := by
    rw [hpt, Table.nth_stampLRU hlt, if_pos rfl]
  have hsame : ∀ i, (y.machine.pt.nth i).valid = (x.machine.pt.nth i).valid ∧
      (y.machine.Maps i 127 ↔ x.machine.Maps i 127) := fun i => by
    rw [Maps, Maps, hcurrent, h.current]
    by_cases hne : i = 0
    · rw [hne, hnew]
      exact ⟨rfl, Iff.rfl⟩
    · rw [hother i hne]
      exact ⟨rfl, Iff.rfl⟩
  have hu : User y.machine y.machine.currentThread 128 := by
    rw [hcurrent]
    exact h.users.2.congr hthreads
  refine ⟨y, hr, (evicts_iff hd).mpr ⟨fun i hi => (hsame i).1.trans (h.valid i hi),
    loads_absent rfl rfl hd hl hu fun i hi hm => h.absent (Nat.le_refl 127) i hi ((hsame i).2.mp hm)⟩,
    victim_eq hd (by decide) fun i hi hne => ?_, fun _ i hi => .inr ?_⟩
  · rw [hother 1 (by decide)]
    by_cases hz : i = 0
    · have habove : Table.Below (·.lruFlag) x.machine.pt 0 _ := Table.lt_freshFlag
      rw [hz, hnew]
      exact habove 1 (by rw [h.dated.accounted.length]; decide) (by decide) (h.valid 1 (by decide))
    · rw [hother i hz]
      exact h.least i (Nat.le_of_lt_succ hi) hne
  · rw [htaken]
    cases i with
    | zero => exact Nat.lt_of_le_of_lt (h.dated.past 0).2.1 hzero
    | succ i =>
      rw [hused (i + 1) (Nat.succ_ne_zero i)]
      exact (h.held i (Nat.succ_lt_succ_iff.mp hi)).2.2.1

/-- Once the frame that came back is translated, the victim is the one that was
translated longest ago. -/
theorem reachable_leastRecent_returned : ∃ x : Frames,
    ((system lruConfig).restrict (Stamped lruConfig)).Reachable x ∧
    x.evicts lruConfig lastPage = true ∧ x.machine.pt.findOneToReplace lruConfig = 1 ∧
    LeastRecent lruConfig x lastPage := by
  obtain ⟨x, hx⟩ := exists_behind 126 (by decide)
  obtain ⟨y, hy, he, hv, hc⟩ := hx.returned
  exact ⟨y, hy, he, hv, reachable_leastRecent rfl rfl rfl hy hc⟩

/-- Before, the frame that came back with its flag stays, though the victim was
translated after it. -/
theorem not_leastRecent : ¬ ∀ (x : Frames) (op : FrameOp × Env),
    (system lruConfig).Reachable x → LeastRecent lruConfig x op := by
  intro hall
  obtain ⟨x, hx⟩ := exists_behind 126 (by decide)
  have hle := hall x lastPage hx.reachable.of_restrict hx.evicts 0 (by decide)
  rw [hx.victim] at hle
  exact absurd (hx.held 0 (by decide)).2.2.2 (Nat.not_lt.mpr hle)

end

end Frames

end Nachos.Vm
