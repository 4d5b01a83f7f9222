import Nachos.Framework.System
import Nachos.Proof.Userprog.Inverted

/-!
# Whole threads and the inverted page table

Creation, switching, exit, suspension and restoring keep the relation `Abs`.
With the accesses this gives the consistency of the table in every reachable
state (`reachable_consistent`), provided that the numbers `SaveAThread` writes
fit in the bytes it writes them to.
-/

namespace Nachos.Vm

open Framework

section
variable {cfg : Config} {env : Env} {s s' : Vm} {a : InvertedTable.State Nat Int}

/-- `new Thread`. -/
theorem Abs.create (h : Abs s a) {p : Option Program} (hx : s.create cfg p = .ok s') :
    ∃ i, Abs s' (a.create i) := by
  obtain ⟨i, hi, hs, ht⟩ := thread_create hx
  have hpi : a.pending i = none := by
    have := h.thread i
    rwa [hi] at this
  refine ⟨i, ⟨⟨?_, fun j e he => ?_, h.inv.create hpi⟩, fun t => ?_⟩⟩
  · rw [hs]
    exact h.table.congr rfl rfl
  · have hne : e.owner ≠ i := fun ho => h.inv.owned j e he (ho ▸ hpi)
    have := h.spaced j e he
    rwa [isUser, ht, if_neg hne]
  · rw [ht]
    by_cases e : t = i
    · subst e; simp [ThreadAt, InvertedTable.State.create]
    · rw [if_neg e]
      simp only [InvertedTable.State.create, Function.update_of_ne e]
      exact h.thread t

/-- A context switch. -/
theorem Abs.run (h : Abs s a) (n : Nat) : Abs (s.run cfg n) a := by
  have hgone : ∀ t, t = s.currentThread ∧ (s.thread t).any UserThread.exited = true →
      a.pending t = none := by
    rintro t ⟨-, he⟩
    obtain ⟨u, hu, he⟩ := (Option.any_eq_true _ _).mp he
    have := h.thread t
    simp only [hu, ThreadAt, he, ite_true] at this
    split at this
    · exact this
    · exact absurd this.1 (by decide)
  refine ⟨⟨?_, fun j e he => ?_, h.inv⟩, fun t => ?_⟩
  · unfold Vm.run
    cases cfg.useTLB <;> exact h.table.congr rfl rfl
  · have := h.spaced j e he
    rw [isUser, thread_run, if_neg fun hc => h.inv.owned j e he (hgone _ hc)]
    exact this
  · rw [thread_run]
    split
    · rename_i hc
      exact hgone t hc
    · exact h.thread t

/-! ## Exit -/

theorem nth_set (t : Table) (i j : Nat) (e : TranslationEntry) (hi : i < t.length) :
    Table.nth (t.set i e) j = if j = i then e else t.nth j := by
  simp only [Table.nth, List.getD_eq_getElem?_getD]
  by_cases h : i = j
  · subst h; simp [hi]
  · simp [List.getElem?_set_ne h, Ne.symm h]

/-- The loop of `SC_Exit`: the entries of the thread are reset and their bits
cleared. -/
theorem exitRPT_spec {is : List Nat} (his : ∀ i ∈ is, i < numPhysPages) (hw : s.mmBitmap.Wf)
    (hn : s.mmBitmap.numBits = numPhysPages) (hl : s.pt.length = numPhysPages)
    (hx : s.exitRPT is = .ok s') :
    ∃ b pt, s' = { s with mmBitmap := b, pt := pt } ∧ b.Wf ∧ b.numBits = numPhysPages ∧
      pt.length = numPhysPages ∧
      (∀ j, pt.nth j = if j ∈ is ∧ (s.pt.nth j).tID = s.currentThread then .reset else s.pt.nth j) ∧
      ∀ j, b.bit j =
        if j ∈ is ∧ (s.pt.nth j).tID = s.currentThread then false else s.mmBitmap.bit j := by
  induction is generalizing s with
  | nil =>
    cases hx
    exact ⟨_, _, rfl, hw, hn, hl, by simp, by simp⟩
  | cons i is ih =>
    have hi := his i List.mem_cons_self
    have his' : ∀ j ∈ is, j < numPhysPages := fun j hj => his j (List.mem_cons_of_mem _ hj)
    unfold exitRPT at hx
    split at hx
    · rename_i ht
      obtain ⟨b, hb, hx⟩ := bind_eq_ok.mp hx
      rw [Bitmap.clear_eq hw (hn ▸ hi)] at hb
      cases hb
      have hil : i < s.pt.length := hl ▸ hi
      obtain ⟨b, pt, rfl, h₁, h₂, h₃, h₄, h₅⟩ := ih (s := { s with
        mmBitmap := s.mmBitmap.put i false, pt := s.pt.set i .reset }) his' (hw.put i false) hn
        (by simpa using hl) hx
      have hlt : i / bitsInWord < s.mmBitmap.map.length := hw.lt (hn ▸ hi)
      refine ⟨b, pt, rfl, h₁, h₂, h₃, fun j => ?_, fun j => ?_⟩
      · rw [h₄ j]
        simp only [nth_set _ _ _ _ hil]
        by_cases e : j = i
        · subst e; simp [ht]
        · simp [e]
      · rw [h₅ j]
        simp only [nth_set _ _ _ _ hil, Bitmap.bit_put hlt]
        by_cases e : j = i
        · subst e; simp [ht]
        · simp [e]
    · rename_i ht
      obtain ⟨b, pt, rfl, h₁, h₂, h₃, h₄, h₅⟩ := ih his' hw hn hl hx
      refine ⟨b, pt, rfl, h₁, h₂, h₃, fun j => ?_, fun j => ?_⟩
      · rw [h₄ j]
        by_cases e : j = i
        · subst e; simp [ht]
        · simp [e]
      · rw [h₅ j]
        by_cases e : j = i
        · subst e; simp [ht]
        · simp [e]

/-- `SC_Exit` resets the slots of the thread that leaves. -/
theorem exitClean_rpt (hR : cfg.useRPT = true) (h : Mapped s a) (hx : s.exitClean cfg = .ok s') :
    (∃ b pt tlb, s' = { s with mmBitmap := b, pt := pt, tlb := tlb }) ∧
      TableAbs s' (a.leave s.currentThread).slot := by
  unfold exitClean at hx
  split at hx
  · -- A kernel thread has no slots.
    rename_i hsp
    cases hx
    refine ⟨⟨_, _, _, rfl⟩, h.table.length, h.table.wf, h.table.numBits, h.table.bit, fun i hi => ?_⟩
    have : (a.leave s.currentThread).slot i = a.slot i := by
      refine Option.ext fun e => ⟨fun he => (InvertedTable.State.leave_slot.mp he).1, fun he => ?_⟩
      refine InvertedTable.State.leave_slot.mpr ⟨he, fun ho => ?_⟩
      have := h.spaced i e he
      simp [isUser, ho, hsp] at this
    rw [this]
    exact h.table.slot i hi
  · rw [hR, if_pos rfl] at hx
    obtain ⟨s₁, h₁, hx⟩ := bind_eq_ok.mp hx
    cases hx
    obtain ⟨b, pt, rfl, hw, hn, hl, hpt, hb⟩ := exitRPT_spec (fun i hi => List.mem_range.mp hi)
      h.table.wf h.table.numBits h.table.length h₁
    refine ⟨⟨_, _, _, rfl⟩, hl, hw, hn, fun i hi => ?_, fun i hi => ?_⟩
    · simp only [hb, hpt, List.mem_range, hi, true_and]
      split
      · rfl
      · exact h.table.bit i hi
    · simp only [hpt, List.mem_range, hi, true_and]
      have hs := h.table.slot i hi
      cases ha : a.slot i with
      | none =>
        rw [ha] at hs
        rw [if_neg (by rw [hs.1]; omega)]
        simpa [InvertedTable.State.leave, ha] using hs
      | some e =>
        obtain ⟨t, v, b'⟩ := e
        rw [ha] at hs
        by_cases e : t = s.currentThread
        · have hgone : (a.leave s.currentThread).slot i = none := by
            simp [InvertedTable.State.leave, ha, e]
          rw [if_pos (by rw [hs.1, e]), hgone]
          exact ⟨rfl, rfl⟩
        · rw [if_neg (by rw [hs.1]; omega), InvertedTable.State.leave_slot.mpr ⟨ha, e⟩]
          exact hs

/-- `SC_Exit`. -/
theorem Abs.exit (hR : cfg.useRPT = true) (h : Abs s a) (hr : s.runnable s.currentThread = true)
    (hx : s.exit cfg = .ok s') : Abs s' (a.leave s.currentThread) := by
  obtain ⟨s₁, h₁, hx⟩ := bind_eq_ok.mp hx
  cases hx
  obtain ⟨⟨b, pt, tlb, rfl⟩, ht⟩ := exitClean_rpt hR h.toMapped h₁
  refine ⟨⟨ht.congr rfl rfl, fun i e he => ?_, h.inv.leave _⟩, fun t => ?_⟩
  · obtain ⟨he, ho⟩ := InvertedTable.State.leave_slot.mp he
    have := h.spaced i e he
    rwa [isUser, thread_setThread, if_neg ho]
  · rw [thread_setThread]
    by_cases e : t = s.currentThread
    · subst e
      obtain ⟨u, hu, hsv, -⟩ := runnable_iff.mp hr
      have hu' : ({ s with mmBitmap := b, pt := pt, tlb := tlb } : Vm).thread s.currentThread = some u :=
        hu
      simp [InvertedTable.State.leave, hu', ThreadAt, hsv]
    · simp only [if_neg e, InvertedTable.State.leave, Function.update_of_ne e]
      exact h.thread t

/-! ## Suspension -/

/-- The resident pages of `tid`, among those in the frames `is`. -/
def resident (s : Vm) (tid : Nat) (is : List Nat) : List Int :=
  (is.filter fun i => (s.pt.nth i).tID = tid && (s.pt.nth i).valid).map fun i => (s.pt.nth i).vpn

/-- The same pages, with the bytes of their frames. -/
def contents (s : Vm) (tid : Nat) (is : List Nat) : List (Int × List Byte) :=
  (is.filter fun i => (s.pt.nth i).tID = tid && (s.pt.nth i).valid).map
    fun i => ((s.pt.nth i).vpn, frame s.mainMemory i)

theorem map_fst_contents (s : Vm) (tid : Nat) (is : List Nat) :
    (s.contents tid is).map Prod.fst = s.resident tid is := List.map_map ..

theorem contents_congr {tid : Nat} {is : List Nat}
    (h : ∀ i ∈ is, s'.pt.nth i = s.pt.nth i ∧ frame s'.mainMemory i = frame s.mainMemory i) :
    s'.contents tid is = s.contents tid is := by
  unfold contents
  rw [List.filter_congr fun i hi => by rw [(h i hi).1]]
  refine List.map_congr_left fun i hi => ?_
  obtain ⟨h₁, h₂⟩ := h i (List.mem_filter.mp hi).1
  rw [h₁, h₂]

/-- The loop of `SaveAThread`: the valid entries of the thread are invalid and
free, and the file has their pages. -/
theorem saveRPT_spec {tid : Nat} {d d' : Dump} {is : List Nat} (his : ∀ i ∈ is, i < numPhysPages)
    (hnd : is.Nodup) (hw : s.mmBitmap.Wf) (hn : s.mmBitmap.numBits = numPhysPages)
    (hl : s.pt.length = numPhysPages) (hb : sizeofInt ≤ d.buf.length)
    (hx : saveRPT tid s d d.file.length is = .ok (s', d')) :
    ∃ b pt r, s' = { s with mmBitmap := b, pt := pt } ∧ b.Wf ∧ b.numBits = numPhysPages ∧
      pt.length = numPhysPages ∧
      (∀ j, pt.nth j = if j ∈ is ∧ (s.pt.nth j).tID = tid then { s.pt.nth j with valid := false }
        else s.pt.nth j) ∧
      (∀ j, b.bit j = if j ∈ is ∧ (s.pt.nth j).tID = tid ∧ (s.pt.nth j).valid = true then false
        else s.mmBitmap.bit j) ∧
      d'.file = d.file ++ r ∧ Records r (s.contents tid is) := by
  induction is generalizing s d with
  | nil =>
    cases hx
    exact ⟨_, _, [], rfl, hw, hn, hl, by simp, by simp, (List.append_nil _).symm, .nil⟩
  | cons i is ih =>
    have hi := his i List.mem_cons_self
    have his' : ∀ j ∈ is, j < numPhysPages := fun j hj => his j (List.mem_cons_of_mem _ hj)
    obtain ⟨hni, hnd⟩ := List.nodup_cons.mp hnd
    have hil : i < s.pt.length := hl ▸ hi
    unfold saveRPT at hx
    simp only at hx
    split at hx
    · rename_i ht
      have hcont : s.contents tid (i :: is) =
          ((s.pt.nth i).vpn, frame s.mainMemory i) :: s.contents tid is := by
        simp only [contents, List.filter_cons, ht, ite_true, List.map_cons]
      obtain ⟨ht, hv⟩ := Bool.and_eq_true_iff.mp ht
      replace ht := of_decide_eq_true ht
      obtain ⟨b, hb', hx⟩ := bind_eq_ok.mp hx
      rw [Bitmap.clear_eq hw (hn ▸ hi)] at hb'
      cases hb'
      obtain ⟨d₁, hd₁, hx⟩ := bind_eq_ok.mp hx
      obtain ⟨x, hfx, hf₁, hbx⟩ := page_spec hb hd₁
      rw [show d.file.length + sizeofInt + pageSize = d₁.file.length by
        rw [hf₁, List.length_append, List.length_append, hfx.length, length_frame,
          Nat.add_assoc]] at hx
      -- The rest of the loop does not look at this entry again.
      have hrest : ({ s with
          pt := s.pt.set i { s.pt.nth i with valid := false }
          mmBitmap := s.mmBitmap.put i false } : Vm).contents tid is = s.contents tid is :=
        contents_congr fun j hj => ⟨by
          simp only [nth_set _ _ _ _ hil]
          rw [if_neg (by rintro rfl; exact hni hj)], rfl⟩
      obtain ⟨b, pt, r, rfl, h₁, h₂, h₃, h₄, h₅, h₆, h₇⟩ := ih (s := { s with
        pt := s.pt.set i { s.pt.nth i with valid := false }
        mmBitmap := s.mmBitmap.put i false }) his' hnd (hw.put i false) hn (by simpa using hl) hbx hx
      have hlt : i / bitsInWord < s.mmBitmap.map.length := hw.lt (hn ▸ hi)
      refine ⟨b, pt, x ++ frame s.mainMemory i ++ r, rfl, h₁, h₂, h₃, fun j => ?_, fun j => ?_, ?_, ?_⟩
      · rw [h₄ j]
        simp only [nth_set _ _ _ _ hil]
        by_cases e : j = i
        · subst e; simp [ht, hni]
        · simp [e]
      · rw [h₅ j]
        simp only [nth_set _ _ _ _ hil, Bitmap.bit_put hlt]
        by_cases e : j = i
        · subst e; simp [ht, hv, hni]
        · simp [e]
      · rw [h₆, hf₁, List.append_assoc]
        rfl
      · rw [hcont]
        rw [hrest] at h₇
        exact .cons hfx (length_frame _ i) h₇
    · rename_i ht
      have hcont : s.contents tid (i :: is) = s.contents tid is := by
        simp only [contents, List.filter_cons, ht]
        rfl
      rw [hcont]
      obtain ⟨b, pt, r, rfl, h₁, h₂, h₃, h₄, h₅, h₆, h₇⟩ := ih his' hnd hw hn hl hb hx
      simp only [Bool.and_eq_true, decide_eq_true_eq, not_and, Bool.not_eq_true] at ht
      refine ⟨b, pt, r, rfl, h₁, h₂, h₃, fun j => ?_, fun j => ?_, h₆, h₇⟩
      · rw [h₄ j]
        by_cases e : j = i
        · subst e
          rw [if_neg fun hc => hni hc.1]
          split
          · rename_i hc
            rw [← ht hc.2]
          · rfl
        · simp [e]
      · rw [h₅ j]
        by_cases e : j = i
        · subst e
          rw [if_neg fun hc => hni hc.1, if_neg fun hc => ?_]
          rw [ht hc.2.1] at hc
          exact absurd hc.2.2 (by decide)
        · simp [e]

/-- They are those of the model. -/
theorem resident_eq_pages (h : TableAbs s a.slot) (t i n : Nat) (hn : i + n ≤ numPhysPages) :
    s.resident t (List.range' i n) = a.pages t i n := by
  induction n generalizing i with
  | zero => rfl
  | succ n ih =>
    have hs := h.slot i (by omega)
    have ih := ih (i + 1) (by omega)
    simp only [resident] at ih
    simp only [resident, List.range'_succ, List.filter_cons, InvertedTable.State.pages]
    cases ha : a.slot i with
    | none =>
      rw [ha] at hs
      simp [hs.2, ih]
    | some e =>
      obtain ⟨u, v, b⟩ := e
      rw [ha] at hs
      obtain ⟨h₁, h₂, h₃, -⟩ := hs
      cases b with
      | false => simp [h₃, ih]
      | true =>
        by_cases e : u = t
        · simp [h₁, h₂, h₃, e, ih]
        · simp [h₁, h₃, e, ih]

theorem countP_eq_resident (hl : s.pt.length = numPhysPages) (t : Nat) :
    (s.pt.countP fun e => e.tID = (t : Int) && e.valid) =
      (s.resident t (List.range numPhysPages)).length := by
  have hpt : s.pt = (List.range numPhysPages).map s.pt.nth := by
    refine List.ext_getElem (by simp [hl]) fun i h₁ h₂ => ?_
    simp [Table.nth, List.getD_eq_getElem?_getD, h₁]
  conv_lhs => rw [hpt]
  rw [List.countP_map, List.countP_eq_length_filter, resident, List.length_map]
  rfl

theorem length_resident_le (s : Vm) (t : Nat) :
    (s.resident t (List.range numPhysPages)).length ≤ numPhysPages := by
  rw [resident, List.length_map]
  exact Nat.le_trans (List.length_filter_le _ _) (by simp)

/-- `SaveAThread`: the valid entries of the thread are invalid and free, and the file
has how many there are and then the pages. -/
theorem saveAThread_spec (hR : cfg.useRPT = true) (hw : s.mmBitmap.Wf)
    (hn : s.mmBitmap.numBits = numPhysPages) (hl : s.pt.length = numPhysPages) {t : Nat} {f : List Byte}
    (hx : s.saveAThread cfg env t = .ok (s', f)) :
    ∃ b pt x r, s' = { s with mmBitmap := b, pt := pt } ∧ b.Wf ∧ b.numBits = numPhysPages ∧
      pt.length = numPhysPages ∧
      (∀ j < numPhysPages, pt.nth j = if (s.pt.nth j).tID = t then { s.pt.nth j with valid := false }
        else s.pt.nth j) ∧
      (∀ j < numPhysPages, b.bit j = if (s.pt.nth j).tID = t ∧ (s.pt.nth j).valid = true then false
        else s.mmBitmap.bit j) ∧
      f = x ++ r ∧ Field x (s.resident t (List.range numPhysPages)).length ∧
      Records r (s.contents t (List.range numPhysPages)) := by
  simp only [saveAThread, hR, ite_true] at hx
  obtain ⟨d, hd, hx⟩ := bind_eq_ok.mp hx
  obtain ⟨⟨s₁, d'⟩, h₁, hx⟩ := bind_eq_ok.mp hx
  cases hx
  rw [countP_eq_resident hl] at hd
  have hbuf : sizeofInt ≤ env.buf.length := by rw [env.length_buf]; decide
  obtain ⟨x, hfx, hf, hb⟩ := number_spec (d := ⟨[], env.buf⟩) hbuf hd
  rw [List.nil_append] at hf
  rw [← hfx.length, ← hf] at h₁
  obtain ⟨b, pt, r, rfl, hw, hn, hl, hpt, hbit, hf', hrec⟩ := saveRPT_spec
    (fun i hi => List.mem_range.mp hi) List.nodup_range hw hn hl hb h₁
  refine ⟨b, pt, x, r, rfl, hw, hn, hl, fun j hj => ?_, fun j hj => ?_, by rw [hf', hf], hfx, hrec⟩
  · simp only [hpt, List.mem_range, hj, true_and]
  · simp only [hbit, List.mem_range, hj, true_and]

/-- `SaveAThread`: the thread is parked, and its file has the pages. -/
theorem saveAThread_rpt (hR : cfg.useRPT = true) (h : Mapped s a) {t : Nat}
    (hs : ∀ v ∈ s.resident t (List.range numPhysPages), Short v) {f : List Byte}
    (hx : s.saveAThread cfg env t = .ok (s', f)) :
    (∃ b pt, s' = { s with mmBitmap := b, pt := pt }) ∧ TableAbs s' (a.park numPhysPages t).slot ∧
      Encoded f (a.pages t 0 numPhysPages) := by
  have hres : s.resident t (List.range numPhysPages) = a.pages t 0 numPhysPages := by
    rw [List.range_eq_range']
    exact resident_eq_pages h.table t 0 numPhysPages (by omega)
  have hle := length_resident_le s t
  obtain ⟨b, pt, x, r, rfl, hw, hn, hl, hpt, hbit, hf, hfx, hrec⟩ :=
    saveAThread_spec hR h.table.wf h.table.numBits h.table.length hx
  refine ⟨⟨b, pt, rfl⟩, ⟨hl, hw, hn, fun i hi => ?_, fun i hi => ?_⟩, ?_⟩
  · simp only [hbit i hi, hpt i hi]
    have := h.table.bit i hi
    by_cases e : (s.pt.nth i).tID = t
    · by_cases e' : (s.pt.nth i).valid = true
      · simp [e, e']
      · simp [e, e', this]
    · simp [e, this]
  · simp only [hpt i hi, InvertedTable.State.park]
    have hs := h.table.slot i hi
    cases ha : a.slot i with
    | none =>
      rw [ha] at hs
      rw [if_neg (by rw [hs.1]; omega)]
      exact hs
    | some e =>
      obtain ⟨u, v, b'⟩ := e
      rw [ha] at hs
      obtain ⟨h₁, h₂, h₃, h₄⟩ := hs
      by_cases e : u = t
      · simp [h₁, h₂, e, SlotAt]
      · simpa [h₁, e, SlotAt, h₂, h₃] using h₄
  · have hlen : (s.contents t (List.range numPhysPages)).length =
        (s.resident t (List.range numPhysPages)).length := by rw [← map_fst_contents, List.length_map]
    rw [hf, ← hres, ← map_fst_contents]
    rw [← hlen] at hfx hle
    rw [← map_fst_contents] at hs
    exact hrec.encoded hfx (short_of_lt (Nat.lt_of_le_of_lt hle (by decide))) hs

/-- `suspendAThread`. -/
theorem Abs.suspend (hR : cfg.useRPT = true) (h : Abs s a) {t : Nat} (hr : s.runnable t = true)
    (hu : s.isUser t = true) (hs : ∀ v ∈ s.resident t (List.range numPhysPages), Short v)
    (hx : s.suspend cfg env t = .ok s') : Abs s' (a.park numPhysPages t) := by
  obtain ⟨⟨s₁, f⟩, h₁, hx⟩ := bind_eq_ok.mp hx
  cases hx
  obtain ⟨⟨b, pt, rfl⟩, htab, henc⟩ := saveAThread_rpt hR h.toMapped hs h₁
  have hth : ∀ u, ({ s with mmBitmap := b, pt := pt } : Vm).thread u = s.thread u := fun _ => rfl
  refine ⟨⟨htab.congr rfl rfl, fun i e he => ?_, h.inv.park (h.pending_of_runnable hr)⟩, fun u => ?_⟩
  · have howner : s.isUser e.owner = true := by
      by_cases ho : e.owner = t
      · rw [ho]; exact hu
      · exact h.spaced i e ((InvertedTable.State.park_slot_ne ho).mp he)
    rw [isUser, thread_setThread, hth]
    split
    · unfold isUser at howner
      cases hc : s.thread e.owner <;> rw [hc] at howner <;> exact howner
    · exact howner
  · rw [thread_setThread, hth]
    by_cases e : u = t
    · subst e
      obtain ⟨w, hw, hsv, hex⟩ := runnable_iff.mp hr
      have hsp : w.space.isSome := by simpa [isUser, hw] using hu
      simp only [ite_true, hw, Option.map_some, ThreadAt, InvertedTable.State.park,
        Function.update_self]
      exact ⟨hex, hsp, _, rfl, henc⟩
    · simp only [if_neg e, InvertedTable.State.park, Function.update_of_ne e]
      exact h.thread u

/-! ## Restoring -/

/-- The loop of `LoadAThread`: the pending pages are loaded. -/
theorem loadPages_rpt (hR : cfg.useRPT = true) {t : Nat} {f buf : List Byte} {offset : Nat}
    {vs : List Int} (h : Mapped s a) (hu : s.isUser t = true) (hp : a.pending t = some vs)
    (hf : Encodes f offset vs) (hx : s.loadPages cfg env t f buf offset vs.length = .ok s') :
    ∃ a', Mapped s' a' ∧ a'.pending t = some [] ∧ (∀ u ≠ t, a'.pending u = a.pending u) ∧
      ∀ u, (s'.thread u).map UserThread.core = (s.thread u).map UserThread.core := by
  induction vs generalizing s a buf offset with
  | nil =>
    cases hx
    exact ⟨a, h, hp, fun _ _ => rfl, fun _ => rfl⟩
  | cons v vs ih =>
    obtain ⟨⟨v', buf'⟩, hv, hx⟩ := bind_eq_ok.mp hx
    obtain ⟨buf'', hv'⟩ := hf.1 buf
    rw [hv'] at hv
    cases hv
    obtain ⟨⟨s₁, p⟩, h₁, hx⟩ := bind_eq_ok.mp hx
    obtain ⟨fr, b, rfl, hfr, rfl⟩ := pageFrame_rpt hR h.table.wf h.table.numBits h.table.length h₁
    obtain ⟨s₂, h₂, hx⟩ := bind_eq_ok.mp hx
    obtain ⟨-, hc⟩ := loadPageFrame_rpt hR h₂
    have hm := h.load ((f.drop (Int.toNat (offset + sizeofInt : Nat))).take pageSize) hfr hp
      (.inl List.mem_cons_self) hu
    have hp' : (a.load t v fr).pending t = some vs := by
      simp [InvertedTable.State.load, hp]
    have hu' : s₂.isUser t = true := by rw [isUser_of_core hc]; exact hu
    obtain ⟨a', hm', hpt, hpu, hth⟩ := ih (hm.of_core hc) hu' hp' hf.2 hx
    refine ⟨a', hm', hpt, fun u hu => ?_, fun u => ?_⟩
    · rw [hpu u hu, InvertedTable.State.load_pending_ne hu]
    · exact (hth u).trans (thread_of_core hc u)

/-- `restoreAThread`. -/
theorem Abs.restore (hR : cfg.useRPT = true) (h : Abs s a) {t : Nat}
    (hx : s.restore cfg env t = .ok s') : ∃ a', Abs s' a' := by
  unfold Vm.restore at hx
  split at hx
  · cases hx
  · rename_i f hf
    obtain ⟨u, hu, hsv⟩ := Option.bind_eq_some_iff.mp hf
    have hat := h.thread t
    simp only [hu, ThreadAt, hsv] at hat
    obtain ⟨hex, hsp, vs, hp, hlen, henc⟩ := hat
    obtain ⟨s₁, h₁, hx⟩ := bind_eq_ok.mp hx
    cases hx
    obtain ⟨⟨n, buf⟩, hn, h₁⟩ := bind_eq_ok.mp h₁
    obtain ⟨buf', hn'⟩ := hlen env.buf
    rw [hn'] at hn
    cases hn
    have huser : s.isUser t = true := by simpa [isUser, hu] using hsp
    obtain ⟨a', hm, hpt, hpu, hth⟩ := loadPages_rpt hR h.toMapped huser hp henc h₁
    refine ⟨a', ⟨hm.table.congr rfl rfl, fun i e he => ?_, hm.inv⟩, fun w => ?_⟩
    · have := hm.spaced i e he
      rw [isUser, thread_setThread]
      split
      · unfold isUser at this
        cases hc : s₁.thread e.owner <;> rw [hc] at this <;> exact this
      · exact this
    · rw [thread_setThread]
      by_cases e : w = t
      · subst e
        have hw := hth w
        rw [hu, Option.map_some] at hw
        obtain ⟨u', hu', hcore⟩ := Option.map_eq_some_iff.mp hw
        have hex' := (UserThread.of_core hcore).1.trans hex
        simp [hu', ThreadAt, hex', hpt]
      · rw [if_neg e, hpu w e]
        exact (h.thread w).of_core (hth w)

/-! ## Every run -/

/-- The initial state: `main` runs and no frame is used. -/
theorem abs_start (hR : cfg.useRPT = true) :
    Abs (start cfg) ⟨fun _ => none, fun t => if t = 0 then some [] else none⟩ := by
  have hpt : (start cfg).pt = List.replicate numPhysPages .reset := by simp [start, hR]
  have hnth : ∀ i, (start cfg).pt.nth i = .reset := fun i => by
    rw [hpt, Table.nth, List.getD_eq_getElem?_getD, List.getElem?_replicate]
    split <;> rfl
  refine ⟨⟨⟨by rw [hpt, List.length_replicate], Bitmap.wf_new _, rfl, fun i _ => ?_, fun i _ => ?_⟩,
    ?_, ⟨fun _ _ => rfl, ?_, ?_, fun t r hr => ?_, ?_, ?_⟩⟩, fun t => ?_⟩
  · rw [hnth]
    exact Bitmap.bit_new _ i
  · rw [hnth]
    exact ⟨rfl, rfl⟩
  · intro i e he
    cases he
  · intro i e he
    cases he
  · intro i j t v he
    cases he
  · simp only at hr
    split at hr <;> cases hr
    exact .nil
  · intro t r i v _ he
    cases he
  · intro t r i v _ he
    cases he
  · by_cases e : t = 0
    · subst e; rfl
    · have hnone : (start cfg).thread t = none := by
        simp only [start, thread, List.getElem?_set_ne (Ne.symm e), List.getElem?_replicate]
        split <;> rfl
      simp [hnone, ThreadAt, e]

/-- The numbers of the pages that `SaveAThread` writes are short. -/
def ShortPages (s : Vm) : Op × Env → Prop
  | (.suspend t, _) => ∀ v ∈ s.resident t (List.range numPhysPages), Short v
  | _ => True

instance (s : Vm) (op : Op × Env) : Decidable (s.ShortPages op) :=
  match op with
  | (.suspend _, _) => inferInstanceAs (Decidable (∀ v ∈ _, _))
  | (.create _, _) | (.run _, _) | (.read _ _, _) | (.write _ _ _, _) | (.restore _, _)
  | (.exit, _) => inferInstanceAs (Decidable True)

/-- One step of the machine. -/
theorem Abs.next (hR : cfg.useRPT = true) (h : Abs s a) {op : Op × Env} (hs : s.ShortPages op)
    (hx : s.next cfg op = .ok s') : ∃ a', Abs s' a' := by
  obtain ⟨op, env⟩ := op
  unfold Vm.next at hx
  split at hx
  · rename_i hen
    cases op with
    | create p =>
      obtain ⟨i, h'⟩ := h.create hx
      exact ⟨_, h'⟩
    | run t =>
      cases hx
      exact ⟨a, h.run t⟩
    | read addr size =>
      obtain ⟨⟨s₁, v⟩, h₁, hx⟩ := bind_eq_ok.mp hx
      cases hx
      exact h.read hR hen h₁
    | write addr size v =>
      obtain ⟨⟨s₁, b⟩, h₁, hx⟩ := bind_eq_ok.mp hx
      cases hx
      exact h.write hR hen h₁
    | exit => exact ⟨_, h.exit hR hen hx⟩
    | suspend t =>
      simp only [enabled, Bool.and_eq_true] at hen
      exact ⟨_, h.suspend hR hen.1.1.2 hen.1.2 hs hx⟩
    | restore t => exact h.restore hR hx
  · cases hx
    exact ⟨a, h⟩

/-- The consistency of the table. -/
structure Consistent (s : Vm) : Prop where
  bitmap : ∀ i < numPhysPages, s.mmBitmap.test i = .ok (s.pt.nth i).valid
  owner : ∀ i < numPhysPages, (s.pt.nth i).valid = true → (s.pt.nth i).ppn = i ∧
    ∃ (t : Nat) (u : UserThread), (s.pt.nth i).tID = t ∧ s.thread t = some u ∧ u.exited = false
  unique : ∀ i < numPhysPages, ∀ j < numPhysPages, (s.pt.nth i).valid = true →
    (s.pt.nth j).valid = true → (s.pt.nth i).tID = (s.pt.nth j).tID →
    (s.pt.nth i).vpn = (s.pt.nth j).vpn → i = j
  lookup : ∀ t vpn f e, s.runnable t = true →
    ({ s with currentThread := t }).rptTranslation vpn = .ok (f, e) → e.valid = true

/-- A valid entry is a valid slot of the model. -/
theorem TableAbs.slot_of_valid (h : TableAbs s a.slot) {i : Nat} (hi : i < numPhysPages)
    (hv : (s.pt.nth i).valid = true) : ∃ t : Nat, (s.pt.nth i).tID = t ∧ (s.pt.nth i).ppn = i ∧
      a.slot i = some ⟨t, (s.pt.nth i).vpn, true⟩ := by
  have hs := h.slot i hi
  cases ha : a.slot i with
  | none =>
    rw [ha] at hs
    rw [hs.2] at hv
    cases hv
  | some e =>
    obtain ⟨t, v, b⟩ := e
    rw [ha] at hs
    obtain ⟨h₁, h₂, h₃, h₄⟩ := hs
    have hb : b = true := h₃.symm.trans hv
    subst h₂ hb
    exact ⟨t, h₁, h₄ rfl, rfl⟩

theorem Abs.consistent (h : Abs s a) : Consistent s where
  bitmap i hi := by
    rw [Bitmap.test_eq _ (h.table.numBits ▸ hi), h.table.bit i hi]
  owner i hi hv := by
    obtain ⟨t, ht, hp, hs⟩ := h.table.slot_of_valid hi hv
    refine ⟨hp, t, ?_⟩
    have hat := h.thread t
    have hown := h.inv.owned i _ hs
    cases hu : s.thread t with
    | none =>
      rw [hu] at hat
      exact absurd hat hown
    | some u =>
      refine ⟨u, ht, rfl, ?_⟩
      simp only [hu, ThreadAt] at hat
      split at hat
      · by_contra hc
        rw [Bool.not_eq_false] at hc
        exact hown (by rw [hat, hc]; rfl)
      · exact hat.1
  unique i hi j hj hvi hvj ht hv := by
    obtain ⟨t, hti, -, hsi⟩ := h.table.slot_of_valid hi hvi
    obtain ⟨u, htj, -, hsj⟩ := h.table.slot_of_valid hj hvj
    have htu : t = u := by omega
    subst htu
    rw [← hv] at hsj
    exact h.inv.unique i j t _ hsi hsj
  lookup t vpn f e hr hl := by
    have hm : Mapped { s with currentThread := t } a := ⟨h.table.congr rfl rfl, h.spaced, h.inv⟩
    obtain ⟨i, b, -, -, -, hs, hb, hlow⟩ := hm.rpt_ok hl
    rw [hb]
    exact h.inv.first_valid (h.pending_of_runnable hr) hs hlow

end

/-- With `USE_RPT` the table is consistent in every state of every run that
suspends only threads whose page numbers are short. -/
theorem reachable_consistent {cfg : Config} (hR : cfg.useRPT = true) {s : Vm}
    (h : ((System.ofFun (start cfg) (next cfg)).restrict ShortPages).Reachable s) :
    Consistent s := by
  have : ∃ a, Abs s a := by
    refine h.invariant (I := fun s => ∃ a, Abs s a) ?_ ?_
    · rintro _ rfl
      exact ⟨_, abs_start hR⟩
    · rintro s op s' ⟨a, ha⟩ ⟨hs, hx⟩
      exact ha.next hR hs hx
  obtain ⟨a, ha⟩ := this
  exact ha.consistent

/-- Two user threads; the first one touches two pages and is suspended and
restored by the second one. -/
def suspendRun (vpn₁ vpn₂ : Int) : List (Op × Env) :=
  [.create (some ⟨[], 0, 20000⟩), .create (some ⟨[], 0, 1⟩), .run 1, .read (vpn₁ * pageSize) 4,
    .read (vpn₂ * pageSize) 4, .run 2, .suspend 1, .restore 1].map fun op => (op, .blank)

/-- Pages 998 and 999 come back as they were. -/
theorem reachable_consistent_restored : ∃ s,
    ((System.ofFun (start ⟨false, true, false, false⟩) (next ⟨false, true, false, false⟩)).restrict
      ShortPages).Reachable s ∧
    ((s.pt.nth 0).valid = true ∧ (s.pt.nth 0).vpn = 998 ∧ (s.pt.nth 1).valid = true ∧
      (s.pt.nth 1).vpn = 999) ∧ Consistent s := by
  obtain ⟨s, hr, hp⟩ := System.exists_reachable_guarded (start ⟨false, true, false, false⟩)
    (next ⟨false, true, false, false⟩) (ShortPages)
    (suspendRun 998 999) (p := fun s => (s.pt.nth 0).valid = true ∧ (s.pt.nth 0).vpn = 998 ∧
      (s.pt.nth 1).valid = true ∧ (s.pt.nth 1).vpn = 999) (by decide +kernel)
  exact ⟨s, hr, of_decide_eq_true hp, reachable_consistent rfl hr⟩

/-- Pages 12345 and 12346 both come back as page 1234. -/
theorem not_consistent_long_pages : ¬ ∀ s, (System.ofFun (start ⟨false, true, false, false⟩)
    (next ⟨false, true, false, false⟩)).Reachable s → Consistent s := by
  intro hall
  obtain ⟨s, hr, hp⟩ := System.exists_reachable (start ⟨false, true, false, false⟩)
    (next ⟨false, true, false, false⟩)
    (suspendRun 12345 12346) (p := fun s => (s.pt.nth 0).valid = true ∧ (s.pt.nth 1).valid = true ∧
      (s.pt.nth 0).tID = (s.pt.nth 1).tID ∧ (s.pt.nth 0).vpn = (s.pt.nth 1).vpn) (by decide +kernel)
  obtain ⟨h₀, h₁, ht, hv⟩ := of_decide_eq_true hp
  exact absurd ((hall s hr).unique 0 (by decide) 1 (by decide) h₀ h₁ ht hv) (by decide)

end Nachos.Vm
