import Nachos.Framework.System
import Nachos.Proof.Userprog.Linear
import Nachos.Spec.Shadow

/-!
# Whole threads and linear page tables

Creation, switching, exit, suspension and restoring keep the tables apart.
With the accesses this gives the exclusive use of the frames in every
reachable state (`reachable_exclusive`), provided that no page is loaded when
memory is full and that the numbers `SaveAThread` writes fit in the bytes it
writes them to.
-/

namespace Nachos.Vm

open Framework

/-- What the file of a thread holds, and that one which exited has none. -/
def SavedAt (u : UserThread) (vs : List Int) : Prop :=
  match u.saved with
  | none => u.exited = false → vs = []
  | some f => u.exited = false ∧ u.space.isSome ∧ Encoded f vs

theorem SavedAt.of_core {u u' : UserThread} {vs : List Int} (h : SavedAt u vs)
    (hc : u'.core = u.core) : SavedAt u' vs := by
  obtain ⟨h₁, h₂, h₃⟩ := UserThread.of_core hc
  have h₃ : u'.space.isSome = u.space.isSome := by simpa using congrArg Option.isSome h₃
  simpa only [SavedAt, h₁, h₂, h₃] using h

/-- The machine with linear page tables. -/
structure Linear (s : Vm) (pend : Nat → List Int) : Prop extends Tables s pend where
  saved : ∀ t u, s.thread t = some u → SavedAt u (pend t)

theorem Linear.of_core {s s' : Vm} {pend : Nat → List Int} (h : Linear s pend)
    (hc : s'.core = s.core) : Linear s' pend where
  toTables := h.toTables.of_core hc
  saved t u' hu' := by
    obtain ⟨u, hu, hcu⟩ := thread_of_core_some hc hu'
    exact (h.saved t u hu).of_core hcu

/-- No frames are shared, and `mmBitmap` has the bits of those in use. -/
structure FramesExclusive (s : Vm) : Prop where
  bound : ∀ k p, s.held k = some p → 0 ≤ p ∧ p < numPhysPages
  unique : ∀ k k' p, s.held k = some p → s.held k' = some p → k = k'
  bits : ∀ i < numPhysPages, s.mmBitmap.test i = .ok true ↔ ∃ k, s.held k = some (i : Int)

theorem Tables.framesExclusive {s : Vm} {pend : Nat → List Int} (h : Tables s pend) :
    FramesExclusive s where
  bound k p hk := by
    obtain ⟨i, rfl, hi, -⟩ := (h.excl.used p).mpr ⟨k, hk⟩
    omega
  unique := h.excl.unique
  bits i hi := by
    rw [Bitmap.test_eq _ (h.numBits ▸ hi), ← h.excl.used]
    constructor
    · intro hb
      exact ⟨i, rfl, hi, Except.ok.inj hb⟩
    · rintro ⟨j, hj, -, hb⟩
      rw [Int.ofNat.inj hj, hb]

section
variable {cfg : Config} (hR : cfg.useRPT = false) {env : Env} {s s' : Vm} {pend : Nat → List Int}

/-- A thread that can run has no pages to be loaded. -/
theorem Linear.runnable (h : Linear s pend) {t : Nat} (hr : s.runnable t = true) :
    ∃ u, s.thread t = some u ∧ u.saved = none ∧ u.exited = false ∧ pend t = [] := by
  obtain ⟨u, hu, hsv, hex⟩ := runnable_iff.mp hr
  have := h.saved t u hu
  simp only [SavedAt, hsv] at this
  exact ⟨u, hu, hsv, hex, this hex⟩

theorem Linear.inUser (h : Linear s pend) (hu : s.inUser = true) :
    ∃ u sp, s.thread s.currentThread = some u ∧ u.exited = false ∧ u.space = some sp ∧
      pend s.currentThread = [] := by
  obtain ⟨hr, hsp⟩ := Bool.and_eq_true_iff.mp hu
  obtain ⟨u, hu, -, hex, hp⟩ := h.runnable hr
  obtain ⟨sp, hsp⟩ := Option.isSome_iff_exists.mp (by simpa [isUser, hu] using hsp)
  exact ⟨u, sp, hu, hex, hsp, hp⟩

/-- A new table has no valid entry. -/
theorem getElem?_new {p : Program} {n : Nat} {e : TranslationEntry}
    (h : (AddrSpace.new cfg p).pt[n]? = some e) : e = .reset := by
  simp only [AddrSpace.new] at h
  split at h
  · cases h
  · rw [List.getElem?_replicate] at h
    split at h <;> cases h
    rfl

theorem held_new (p : Option Program) (v : Nat) :
    (⟨p.map (AddrSpace.new cfg), none, false⟩ : UserThread).held v = none := by
  cases p with
  | none => rfl
  | some p =>
    simp only [UserThread.held, Bool.false_eq_true, ite_false, Option.map_some, Option.bind_some]
    cases he : (AddrSpace.new cfg p).pt[v]? with
    | none => rfl
    | some e =>
      rw [getElem?_new he]
      rfl

include hR in
/-- `new Thread`. -/
theorem Linear.create (h : Linear s pend) {p : Option Program} (hx : s.create cfg p = .ok s') :
    ∃ i, s'.held = s.held ∧ Linear s' (Function.update pend i []) := by
  obtain ⟨i, hi, hs, ht⟩ := thread_create hx
  have hheld : s'.held = s.held := by
    funext k
    simp only [held, ht]
    split
    · rename_i e
      rw [e, hi, Option.bind_some, held_new, Option.bind_none]
    · rfl
  have hb : s'.mmBitmap = s.mmBitmap := by rw [hs]
  refine ⟨i, hheld,
    ⟨⟨hb ▸ h.wf, hb ▸ h.numBits, by rw [hheld, hb]; exact h.excl, fun t u sp hu hsp => ?_⟩,
      fun t u hu => ?_⟩⟩
  · rw [ht] at hu
    split at hu
    · rename_i e
      cases hu
      cases p with
      | none => cases hsp
      | some p =>
        cases hsp
        rw [e, Function.update_self]
        refine ⟨⟨by simp [AddrSpace.new, hR], fun e he => ?_, fun n e hn hval => ?_⟩,
          fun _ => ⟨.nil, List.forall_mem_nil _, fun n e he _ => .inl (by rw [getElem?_new he]; rfl)⟩⟩
        · obtain ⟨n, hn⟩ := List.mem_iff_getElem?.mp he
          rw [getElem?_new hn]
          rfl
        · rw [getElem?_new hn] at hval
          cases hval
    · rename_i e
      rw [Function.update_of_ne e]
      exact h.space t u sp hu hsp
  · rw [ht] at hu
    split at hu
    · rename_i e
      cases hu
      rw [e, Function.update_self]
      exact fun _ => rfl
    · rename_i e
      rw [Function.update_of_ne e]
      exact h.saved t u hu

/-- A context switch. -/
theorem Linear.run (h : Linear s pend) (n : Nat) :
    (s.run cfg n).held = s.held ∧ Linear (s.run cfg n) pend := by
  have hheld : (s.run cfg n).held = s.held := by
    funext k
    simp only [held, thread_run]
    split
    · rename_i hc
      obtain ⟨u, hu, he⟩ := (Option.any_eq_true _ _).mp hc.2
      simp [hu, UserThread.held, he]
    · rfl
  have hb : (s.run cfg n).mmBitmap = s.mmBitmap := by
    unfold Vm.run
    cases cfg.useTLB <;> rfl
  refine ⟨hheld, ⟨⟨hb ▸ h.wf, hb ▸ h.numBits, by rw [hheld, hb]; exact h.excl,
    fun t u sp hu => h.space t u sp (thread_of_run hu)⟩, fun t u hu => h.saved t u (thread_of_run hu)⟩⟩

/-! ## Exit -/

/-- The frame is not that of a valid entry of the table. -/
def Unmapped (pt : Table) (p : Int) : Prop := ∀ e ∈ pt, e.valid = true → e.ppn ≠ p

theorem unmapped_cons {e : TranslationEntry} {pt : Table} {p : Int} :
    Unmapped (e :: pt) p ↔ (e.valid = true → e.ppn ≠ p) ∧ Unmapped pt p :=
  List.forall_mem_cons

/-- The loop of `SC_Exit`: the frames of the valid entries are free. -/
theorem clearFrames_spec {b b' : Bitmap} {pt : Table} (hw : b.Wf) (h : clearFrames b pt = .ok b') :
    b'.Wf ∧ b'.numBits = b.numBits ∧
      ∀ j : Nat, b'.bit j = true ↔ b.bit j = true ∧ Unmapped pt j := by
  induction pt generalizing b with
  | nil =>
    cases h
    exact ⟨hw, rfl, fun j => by simp [Unmapped]⟩
  | cons e es ih =>
    obtain ⟨b₁, h₁, h⟩ := bind_eq_ok.mp h
    split at h₁
    · rename_i hv
      obtain ⟨i, hi, hlt, rfl⟩ := Bitmap.clear_cases hw h₁
      obtain ⟨hw', hn, hb⟩ := ih (hw.put i false) h
      refine ⟨hw', hn, fun j => ?_⟩
      rw [hb, Bitmap.bit_put (hw.lt hlt), unmapped_cons]
      by_cases e' : j = i
      · subst e'; simp [hv, hi]
      · have : e.ppn ≠ (j : Int) := by omega
        simp [e', this]
    · rename_i hv
      cases h₁
      obtain ⟨hw', hn, hb⟩ := ih hw h
      refine ⟨hw', hn, fun j => ?_⟩
      rw [hb, unmapped_cons]
      simp [hv]

/-- A thread gives up the frames of its valid entries. -/
theorem Tables.release (h : Tables s pend) {t : Nat} {u : UserThread} {sp : AddrSpace}
    (hu : s.thread t = some u) (hex : u.exited = false) (hsp : u.space = some sp) {b : Bitmap}
    (hb : ∀ j : Nat, b.bit j = true ↔ s.mmBitmap.bit j = true ∧ Unmapped sp.pt j)
    {held' : Nat × Nat → Option Int} (ht : ∀ v, held' (t, v) = none)
    (hne : ∀ w ≠ t, ∀ v, held' (w, v) = s.held (w, v)) : Exclusive.Inv held' (used b) := by
  refine h.excl.release (q := fun k => k.1 = t) ?_ ?_ fun p => ?_
  · rintro ⟨w, v⟩ rfl
    exact ht v
  · rintro ⟨w, v⟩ hw
    exact hne w hw v
  · have hmap : ∀ v, s.held (t, v) = some p ↔ ∃ e, sp.pt[v]? = some e ∧ e.valid = true ∧ e.ppn = p := by
      intro v
      simp [held, hu, UserThread.held, hex, hsp, Option.bind_eq_some_iff]
    constructor
    · rintro ⟨i, rfl, hi, hbit⟩
      obtain ⟨hbit, hun⟩ := (hb i).mp hbit
      refine ⟨⟨i, rfl, hi, hbit⟩, ?_⟩
      rintro ⟨w, v⟩ rfl hk
      obtain ⟨e, he, hv, hp⟩ := (hmap v).mp hk
      exact hun e (List.mem_of_getElem? he) hv hp
    · rintro ⟨⟨i, rfl, hi, hbit⟩, hfree⟩
      refine ⟨i, rfl, hi, (hb i).mpr ⟨hbit, fun e he hv hp => ?_⟩⟩
      obtain ⟨v, hv'⟩ := List.mem_iff_getElem?.mp he
      exact hfree (t, v) rfl ((hmap v).mpr ⟨e, hv', hv, hp⟩)

/-- A thread without an address space holds nothing. -/
theorem held_kernel {t : Nat} {u : UserThread} (hu : s.thread t = some u) (hsp : u.space = none)
    (v : Nat) : s.held (t, v) = none := by
  simp only [held, hu, Option.bind_some, UserThread.held, hsp, Option.bind_none]
  split <;> rfl

include hR in
/-- `SC_Exit`. -/
theorem Linear.exit (h : Linear s pend) (hr : s.runnable s.currentThread = true)
    (hx : s.exit cfg = .ok s') :
    (∀ k, s'.held k = if k.1 = s.currentThread then none else s.held k) ∧ Linear s' pend := by
  obtain ⟨s₁, h₁, hx⟩ := bind_eq_ok.mp hx
  replace hx := (Except.ok.inj hx).symm
  obtain ⟨u, hu, hsv, hex, -⟩ := h.runnable hr
  -- The bitmap after the frames are free.
  have hclean : ∃ b tlb, s₁ = { s with mmBitmap := b, tlb := tlb } ∧ b.Wf ∧
      b.numBits = numPhysPages ∧ Exclusive.Inv (fun k => if k.1 = s.currentThread then none
        else s.held k) (used b) := by
    unfold exitClean at h₁
    split at h₁
    · rename_i hsp
      cases h₁
      refine ⟨s.mmBitmap, s.tlb, rfl, h.wf, h.numBits, ?_⟩
      have hk := held_kernel hu (by simpa [hu] using hsp)
      have : (fun k : Nat × Nat => if k.1 = s.currentThread then none else s.held k) = s.held := by
        funext k
        obtain ⟨t, v⟩ := k
        dsimp only
        split
        · rename_i e
          rw [e, hk v]
        · rfl
      rw [this]
      exact h.excl
    · rename_i sp hsp
      rw [hR] at h₁
      simp only [Bool.false_eq_true, ite_false] at h₁
      obtain ⟨b, hb, h₁⟩ := bind_eq_ok.mp h₁
      cases h₁
      obtain ⟨hw, hn, hbit⟩ := clearFrames_spec h.wf hb
      refine ⟨b, _, rfl, hw, hn.trans h.numBits, h.release hu hex (by simpa [hu] using hsp) hbit
        (fun v => if_pos rfl) fun w hw v => if_neg hw⟩
  obtain ⟨b, tlb, rfl, hw, hn, hexcl⟩ := hclean
  have hth : ∀ t, s'.thread t =
      if t = s.currentThread then some { u with exited := true } else s.thread t := fun t => by
    rw [hx, thread_setThread]
    by_cases e : t = s.currentThread
    · subst e
      rw [if_pos rfl, if_pos rfl, show ({ s with mmBitmap := b, tlb := tlb } : Vm).thread
        s.currentThread = some u from hu]
      rfl
    · rw [if_neg e, if_neg e]
      rfl
  have hheld : ∀ k, s'.held k = if k.1 = s.currentThread then none else s.held k := fun k => by
    simp only [held, hth]
    split <;> rfl
  have hb : s'.mmBitmap = b := by rw [hx]; rfl
  refine ⟨hheld, ⟨⟨hb ▸ hw, hb ▸ hn, ?_, fun t w sp ht hsp => ?_⟩, fun t w ht => ?_⟩⟩
  · rw [funext hheld, hb]
    exact hexcl
  · rw [hth] at ht
    split at ht
    · rename_i e
      cases ht
      exact ⟨(h.space t u sp (e ▸ hu) hsp).1, fun hex => by cases hex⟩
    · exact h.space t w sp ht hsp
  · rw [hth] at ht
    split at ht
    · cases ht
      simp [SavedAt, hsv]
    · exact h.saved t w ht

/-! ## Suspension -/

/-- The valid pages of a table, from page `i` on. -/
def validPages (i : Nat) : Table → List Int
  | [] => []
  | e :: es => if e.valid then (i : Int) :: validPages (i + 1) es else validPages (i + 1) es

theorem mem_validPages {i : Nat} {pt : Table} {v : Int} :
    v ∈ validPages i pt ↔ ∃ n e, v = (i + n : Nat) ∧ pt[n]? = some e ∧ e.valid = true := by
  induction pt generalizing i with
  | nil => simp [validPages]
  | cons e es ih =>
    have hcons : (∃ n e', v = (i + n : Nat) ∧ (e :: es)[n]? = some e' ∧ e'.valid = true) ↔
        (v = i ∧ e.valid = true) ∨ v ∈ validPages (i + 1) es := by
      rw [ih]
      constructor
      · rintro ⟨n, e', rfl, he, hv⟩
        cases n with
        | zero =>
          cases he
          exact .inl ⟨rfl, hv⟩
        | succ n => exact .inr ⟨n, e', by omega, he, hv⟩
      · rintro (⟨rfl, hv⟩ | ⟨n, e', rfl, he, hv⟩)
        · exact ⟨0, e, rfl, rfl, hv⟩
        · exact ⟨n + 1, e', by omega, he, hv⟩
    rw [hcons, validPages]
    split
    · rename_i hv
      simp [hv]
    · rename_i hv
      simp [hv]

theorem nodup_validPages (i : Nat) (pt : Table) : (validPages i pt).Nodup := by
  induction pt generalizing i with
  | nil => exact .nil
  | cons e es ih =>
    rw [validPages]
    split
    · refine List.nodup_cons.mpr ⟨fun hm => ?_, ih (i + 1)⟩
      obtain ⟨n, -, hn, -⟩ := mem_validPages.mp hm
      omega
    · exact ih (i + 1)

theorem length_validPages (i : Nat) (pt : Table) :
    (validPages i pt).length = pt.countP fun e => e.valid := by
  induction pt generalizing i with
  | nil => rfl
  | cons e es ih =>
    rw [validPages, List.countP_cons]
    split
    · rw [List.length_cons, ih]
    · rw [ih, Nat.add_zero]

/-- The valid pages of a table with the bytes of their frames, from page `i` on. -/
def tableContents (m : Nat → Byte) (i : Nat) : Table → List (Int × List Byte)
  | [] => []
  | e :: es =>
    if e.valid then ((i : Int), frame m e.ppn.toNat) :: tableContents m (i + 1) es
    else tableContents m (i + 1) es

theorem map_fst_tableContents (m : Nat → Byte) (i : Nat) (pt : Table) :
    (tableContents m i pt).map Prod.fst = validPages i pt := by
  induction pt generalizing i with
  | nil => rfl
  | cons e es ih =>
    rw [tableContents, validPages]
    split
    · rw [List.map_cons, ih]
    · exact ih (i + 1)

/-- The entries, all not valid. -/
def invalidate (pt : Table) : Table := pt.map fun e => { e with valid := false }

/-- The loop of `SaveAThread` changes `mmBitmap` and the entries only. -/
theorem saveLinear_frame {d d' : Dump} {offset i : Nat} {pt pt' : Table}
    (hx : saveLinear s d offset i pt = .ok (s', d', pt')) :
    (∃ b, s' = { s with mmBitmap := b }) ∧ pt' = invalidate pt := by
  induction pt generalizing s d offset i pt' with
  | nil =>
    cases hx
    exact ⟨⟨_, rfl⟩, rfl⟩
  | cons e es ih =>
    unfold saveLinear at hx
    split at hx
    · obtain ⟨b, -, hx⟩ := bind_eq_ok.mp hx
      obtain ⟨d₁, -, hx⟩ := bind_eq_ok.mp hx
      obtain ⟨⟨s₁, d₂, es'⟩, hx₁, hx⟩ := bind_eq_ok.mp hx
      cases hx
      obtain ⟨⟨b', rfl⟩, rfl⟩ := ih hx₁
      exact ⟨⟨b', rfl⟩, rfl⟩
    · rename_i hv
      obtain ⟨⟨s₁, d₂, es'⟩, hx₁, hx⟩ := bind_eq_ok.mp hx
      cases hx
      obtain ⟨⟨b', rfl⟩, rfl⟩ := ih hx₁
      refine ⟨⟨b', rfl⟩, congrArg (· :: _) ?_⟩
      cases e
      simp_all

/-- The loop of `SaveAThread`: the frames of the valid entries are free, no
entry is valid, and the file has their pages. -/
theorem saveLinear_spec {d d' : Dump} {i : Nat} {pt pt' : Table} (hw : s.mmBitmap.Wf)
    (hb : sizeofInt ≤ d.buf.length) (hx : saveLinear s d d.file.length i pt = .ok (s', d', pt')) :
    ∃ b r, s' = { s with mmBitmap := b } ∧ b.Wf ∧ b.numBits = s.mmBitmap.numBits ∧
      (∀ j : Nat, b.bit j = true ↔ s.mmBitmap.bit j = true ∧ Unmapped pt j) ∧
      pt' = invalidate pt ∧ d'.file = d.file ++ r ∧ Records r (tableContents s.mainMemory i pt) := by
  induction pt generalizing s s' d i pt' with
  | nil =>
    cases hx
    exact ⟨_, [], rfl, hw, rfl, fun j => by simp [Unmapped], rfl, (List.append_nil _).symm, .nil⟩
  | cons e es ih =>
    unfold saveLinear at hx
    split at hx
    · rename_i hv
      obtain ⟨b, hb', hx⟩ := bind_eq_ok.mp hx
      obtain ⟨k, hk, hlt, rfl⟩ := Bitmap.clear_cases hw hb'
      obtain ⟨d₁, hd₁, hx⟩ := bind_eq_ok.mp hx
      obtain ⟨x, hfx, hf₁, hbx⟩ := page_spec hb hd₁
      rw [show d.file.length + sizeofInt + pageSize = d₁.file.length by
        rw [hf₁, List.length_append, List.length_append, hfx.length, length_frame,
          Nat.add_assoc]] at hx
      obtain ⟨⟨s₂, d₂, es'⟩, h₂, hx⟩ := bind_eq_ok.mp hx
      cases hx
      obtain ⟨b, r, rfl, hw', hn, hbit, rfl, hf₂, hrec⟩ := ih (hw.put k false) hbx h₂
      refine ⟨b, x ++ frame s.mainMemory e.ppn.toNat ++ r, rfl, hw', hn, fun j => ?_, rfl, ?_, ?_⟩
      · rw [hbit, Bitmap.bit_put (hw.lt hlt), unmapped_cons]
        by_cases e' : j = k
        · subst e'; simp [hv, hk]
        · have : e.ppn ≠ (j : Int) := by omega
          simp [e', this]
      · rw [hf₂, hf₁, List.append_assoc]
      · rw [tableContents, if_pos hv]
        exact .cons hfx (length_frame _ _) hrec
    · rename_i hv
      obtain ⟨⟨s₂, d₂, es'⟩, h₂, hx⟩ := bind_eq_ok.mp hx
      cases hx
      obtain ⟨b, r, rfl, hw', hn, hbit, rfl, hf₂, hrec⟩ := ih hw hb h₂
      refine ⟨b, r, rfl, hw', hn, fun j => ?_, ?_, hf₂, ?_⟩
      · rw [hbit, unmapped_cons]
        simp [hv]
      · rw [Bool.not_eq_true] at hv
        simp only [invalidate, List.map_cons, ← hv]
      · rwa [tableContents, if_neg hv]

theorem idle_invalidate {pt : Table} (h : pt.Idle []) : (invalidate pt).Idle (validPages 0 pt) where
  nodup := nodup_validPages 0 pt
  pending v hv := by
    obtain ⟨n, e, rfl, he, -⟩ := mem_validPages.mp hv
    exact ⟨n, { e with valid := false }, by omega, by simp [invalidate, he], rfl⟩
  idle n e' he' _ := by
    simp only [invalidate, List.getElem?_map, Option.map_eq_some_iff] at he'
    obtain ⟨e, he, rfl⟩ := he'
    by_cases hv : e.valid = true
    · exact .inr (mem_validPages.mpr ⟨n, e, by omega, he, hv⟩)
    · refine .inl ((h.idle n e he (by simpa using hv)).resolve_right ?_)
      exact List.not_mem_nil

include hR in
/-- `suspendAThread`. -/
theorem Linear.suspend (h : Linear s pend) {t : Nat} {u : UserThread} {sp : AddrSpace}
    (hu : s.thread t = some u) (hex : u.exited = false) (hsp : u.space = some sp)
    (hp : pend t = []) (hs : ∀ v ∈ validPages 0 sp.pt, Short v)
    (hlen : Short (validPages 0 sp.pt).length) (hx : s.suspend cfg env t = .ok s') :
    Linear s' (Function.update pend t (validPages 0 sp.pt)) := by
  obtain ⟨⟨s₁, f⟩, h₁, hx⟩ := bind_eq_ok.mp hx
  replace hx := (Except.ok.inj hx).symm
  simp only [saveAThread, hR, Bool.false_eq_true, ite_false] at h₁
  obtain ⟨sp', hsp', h₁⟩ := bind_eq_ok.mp h₁
  rw [space_eq_ok.mpr ⟨u, hu, hsp⟩] at hsp'
  cases hsp'
  obtain ⟨d, hd, h₁⟩ := bind_eq_ok.mp h₁
  obtain ⟨⟨s₂, d₂, pt⟩, h₂, h₁⟩ := bind_eq_ok.mp h₁
  cases h₁
  have hbuf : sizeofInt ≤ env.buf.length := by rw [env.length_buf]; decide
  rw [← length_validPages 0] at hd
  obtain ⟨x, hfx, hf, hb⟩ := number_spec (d := ⟨[], env.buf⟩) hbuf hd
  rw [List.nil_append] at hf
  rw [← hfx.length, ← hf] at h₂
  obtain ⟨b, r, rfl, hw, hn, hbit, rfl, hf₂, hrec⟩ := saveLinear_spec h.wf hb h₂
  obtain ⟨hok, hidle⟩ := h.space t u sp hu hsp
  have henc' : Encoded d₂.file (validPages 0 sp.pt) := by
    rw [← map_fst_tableContents s.mainMemory] at hs hlen hfx ⊢
    rw [List.length_map] at hlen hfx
    rw [hf₂, hf]
    exact hrec.encoded hfx hlen hs
  -- The thread has a table without valid entries and a file.
  have hth : ∀ w, s'.thread w = if w = t then
      some { u with space := some { sp with pt := invalidate sp.pt }, saved := some d₂.file }
      else s.thread w := fun w => by
    rw [hx, thread_setThread, thread_setSpace]
    by_cases e : w = t
    · subst e
      simp only [ite_true]
      rw [show ({ s with mmBitmap := b } : Vm).thread w = some u from hu]
      rfl
    · simp only [if_neg e]
      rfl
  have hbm : s'.mmBitmap = b := by rw [hx]; rfl
  refine ⟨⟨hbm ▸ hw, hbm ▸ hn.trans h.numBits, ?_, fun w u' sp' hu' hsp' => ?_⟩, fun w u' hu' => ?_⟩
  · rw [hbm]
    refine h.toTables.release hu hex hsp hbit (fun v => ?_) fun w hw v => ?_
    · simp only [held, hth, ite_true, Option.bind_some, UserThread.held, hex, Bool.false_eq_true,
        ite_false, invalidate, List.getElem?_map]
      cases sp.pt[v]? <;> rfl
    · simp only [held, hth, if_neg hw]
  · rw [hth] at hu'
    split at hu'
    · rename_i e
      cases hu'
      cases hsp'
      rw [e, Function.update_self]
      refine ⟨⟨by simpa [invalidate] using hok.length, fun e' he' => ?_, fun n e' he' hval => ?_⟩,
        fun _ => idle_invalidate (hp ▸ hidle hex)⟩
      · obtain ⟨e, he, rfl⟩ := List.mem_map.mp he'
        exact hok.dirty e he
      · simp only [invalidate, List.getElem?_map, Option.map_eq_some_iff] at he'
        obtain ⟨e, -, rfl⟩ := he'
        cases hval
    · rename_i e
      rw [Function.update_of_ne e]
      exact h.space w u' sp' hu' hsp'
  · rw [hth] at hu'
    split at hu'
    · rename_i e
      cases hu'
      rw [e, Function.update_self]
      exact ⟨hex, rfl, henc'⟩
    · rename_i e
      rw [Function.update_of_ne e]
      exact h.saved w u' hu'

/-! ## Restoring -/

include hR in
/-- The loop of `LoadAThread`, with enough free frames: the pending pages are
loaded. -/
theorem loadPages_linear {t : Nat} {f buf : List Byte} {offset : Nat} {vs : List Int}
    {u : UserThread} {sp : AddrSpace} (h : Tables s pend) (hu : s.thread t = some u)
    (hex : u.exited = false) (hsp : u.space = some sp) (hp : pend t = vs)
    (hroom : vs.length ≤ s.mmBitmap.free.card) (hf : Encodes f offset vs)
    (hx : s.loadPages cfg env t f buf offset vs.length = .ok s') :
    Tables s' (Function.update pend t []) ∧
      (∃ u', s'.thread t = some u' ∧ u'.exited = false) ∧
      ∀ w ≠ t, (s'.thread w).map UserThread.core = (s.thread w).map UserThread.core := by
  induction vs generalizing s pend buf offset u sp with
  | nil =>
    cases hx
    rw [← hp, Function.update_eq_self]
    exact ⟨h, ⟨u, hu, hex⟩, fun _ _ => rfl⟩
  | cons v vs ih =>
    obtain ⟨⟨v', buf'⟩, hv, hx⟩ := bind_eq_ok.mp hx
    obtain ⟨buf'', hv'⟩ := hf.1 buf
    rw [hv'] at hv
    cases hv
    obtain ⟨⟨s₁, p⟩, h₁, hx⟩ := bind_eq_ok.mp hx
    obtain ⟨s₂, h₂, hrest⟩ := bind_eq_ok.mp hx
    rcases pageFrame_cases h.wf h₁ with ⟨fr, rfl, hfr, -, hfree, rfl⟩ | ⟨hfull, -⟩
    · obtain ⟨hok, hidle⟩ := h.space t u sp hu hsp
      have hspace : ({ s with mmBitmap := s.mmBitmap.put fr true } : Vm).space t = .ok sp :=
        space_eq_ok.mpr ⟨u, hu, hsp⟩
      obtain ⟨n, rfl, hlt, -, hcore⟩ := loadPageFrame_linear hR hspace hok h₂
      obtain ⟨n', e, hn', he, hval⟩ := (hidle hex).pending n (hp ▸ List.mem_cons_self)
      obtain rfl := Int.ofNat.inj hn'
      have hload := (h.load hu hex hsp he hval (h.numBits ▸ hfr) hfree
        ((f.drop (Int.toNat (offset + sizeofInt : Nat))).take pageSize)).of_core hcore
      have hth : ∀ w, (s₂.thread w).map UserThread.core = (if w = t then
          some { u with space := some (loadPage sp n fr) } else s.thread w).map UserThread.core := by
        intro w
        refine (thread_of_core hcore w).trans (congrArg _ ?_)
        exact thread_loadLinear (s := { s with mmBitmap := s.mmBitmap.put fr true }) hu sp _ n fr _ w
      have ht := hth t
      rw [if_pos rfl, Option.map_some] at ht
      obtain ⟨u₂, hu₂, hcu⟩ := Option.map_eq_some_iff.mp ht
      obtain ⟨hex₂, -, hsp₂⟩ := UserThread.of_core hcu
      rw [Option.map_some] at hsp₂
      obtain ⟨sp₂, hsp₂, -⟩ := Option.map_eq_some_iff.mp hsp₂
      have hfree₂ : vs.length ≤ s₂.mmBitmap.free.card := by
        rw [(of_core hcore).1]
        show _ ≤ (s.mmBitmap.put fr true).free.card
        rw [Bitmap.free_put_true h.wf hfr,
          Finset.card_erase_of_mem (Bitmap.mem_free.mpr ⟨hfr, hfree⟩)]
        rw [List.length_cons] at hroom
        omega
      obtain ⟨hT, hu', hother⟩ := ih hload hu₂ (hex₂.trans hex) hsp₂
        (by rw [Function.update_self, hp, List.erase_cons_head]) hfree₂ hf.2 hrest
      rw [Function.update_idem] at hT
      refine ⟨hT, hu', fun w hw => ?_⟩
      rw [hother w hw, hth w, if_neg hw]
    · -- There is a free frame.
      exfalso
      have : s.mmBitmap.free = ∅ := by
        ext i
        simp only [Bitmap.mem_free, Finset.notMem_empty, iff_false, not_and, Bool.not_eq_false]
        exact hfull i
      rw [this] at hroom
      simp at hroom

include hR in
/-- `restoreAThread`, with enough free frames. -/
theorem Linear.restore (h : Linear s pend) {t : Nat} (hroom : (pend t).length ≤ s.mmBitmap.free.card)
    (hx : s.restore cfg env t = .ok s') : Linear s' (Function.update pend t []) := by
  unfold Vm.restore at hx
  split at hx
  · cases hx
  · rename_i f hf
    obtain ⟨u, hu, hsv⟩ := Option.bind_eq_some_iff.mp hf
    have hat := h.saved t u hu
    simp only [SavedAt, hsv] at hat
    obtain ⟨hex, hsp, hlen, henc⟩ := hat
    obtain ⟨sp, hsp⟩ := Option.isSome_iff_exists.mp hsp
    obtain ⟨s₁, h₁, hx⟩ := bind_eq_ok.mp hx
    replace hx := (Except.ok.inj hx).symm
    obtain ⟨⟨n, buf⟩, hn, h₁⟩ := bind_eq_ok.mp h₁
    obtain ⟨buf', hn'⟩ := hlen env.buf
    rw [hn'] at hn
    cases hn
    obtain ⟨hT, ⟨u₁, hu₁, hex₁⟩, hother⟩ :=
      loadPages_linear hR h.toTables hu hex hsp rfl hroom henc h₁
    have hth : ∀ w, s'.thread w = if w = t then some { u₁ with saved := none } else s₁.thread w :=
      fun w => by
        rw [hx, thread_setThread]
        by_cases e : w = t
        · subst e; simp [hu₁]
        · rw [if_neg e, if_neg e]
    have hheld : s'.held = s₁.held := by
      funext k
      simp only [held, hth]
      split
      · rename_i e
        rw [e, hu₁]
        rfl
      · rfl
    have hb : s'.mmBitmap = s₁.mmBitmap := by rw [hx]; rfl
    refine ⟨⟨hb ▸ hT.wf, hb ▸ hT.numBits, by rw [hheld, hb]; exact hT.excl,
      fun w u' sp' hu' hsp' => ?_⟩, fun w u' hu' => ?_⟩
    · rw [hth] at hu'
      split at hu'
      · rename_i e
        cases hu'
        exact hT.space w u₁ sp' (e ▸ hu₁) hsp'
      · exact hT.space w u' sp' hu' hsp'
    · rw [hth] at hu'
      split at hu'
      · rename_i e
        cases hu'
        rw [e, Function.update_self]
        exact fun _ => rfl
      · rename_i e
        rw [Function.update_of_ne e]
        have := hother w e
        rw [hu', Option.map_some] at this
        obtain ⟨u₀, hu₀, hc⟩ := Option.map_eq_some_iff.mp this.symm
        exact (h.saved w u₀ hu₀).of_core hc.symm

/-! ## Every run -/

theorem linear_start : Linear (start cfg) fun _ => [] := by
  have hth : ∀ t u, (start cfg).thread t = some u → u = ⟨none, none, false⟩ := fun t u hu => by
    by_cases e : t = 0
    · subst e
      exact (Option.some.inj hu).symm
    · simp only [start, thread, List.getElem?_set_ne (Ne.symm e), List.getElem?_replicate] at hu
      split at hu <;> cases hu
  refine ⟨⟨Bitmap.wf_new _, rfl, Exclusive.inv_empty (fun k => ?_) ?_, fun t u sp hu hsp => ?_⟩,
    fun t u hu => ?_⟩
  · unfold held
    cases hu : (start cfg).thread k.1 with
    | none => rfl
    | some u =>
      rw [hth k.1 u hu]
      rfl
  · rintro p ⟨i, -, -, hb⟩
    rw [show (start cfg).mmBitmap = .new numPhysPages from rfl, Bitmap.bit_new] at hb
    cases hb
  · rw [hth t u hu] at hsp
    cases hsp
  · rw [hth t u hu]
    exact fun _ => rfl

/-- There are not more valid entries than frames. -/
theorem Tables.length_validPages_le (h : Tables s pend) {t : Nat} {u : UserThread} {sp : AddrSpace}
    (hu : s.thread t = some u) (hex : u.exited = false) (hsp : u.space = some sp) :
    (validPages 0 sp.pt).length ≤ numPhysPages := by
  have hheld : ∀ v ∈ validPages 0 sp.pt, ∃ n i : Nat, v = n ∧ i < numPhysPages ∧
      s.held (t, n) = some (i : Int) := by
    intro v hv
    obtain ⟨n, e, rfl, he, hval⟩ := mem_validPages.mp hv
    have hk : s.held (t, n) = some e.ppn := by
      simp [held, hu, UserThread.held, hex, hsp, he, hval]
    obtain ⟨i, hi, hlt, -⟩ := (h.excl.used _).mpr ⟨_, hk⟩
    exact ⟨n, i, by omega, hlt, hi ▸ hk⟩
  rw [← List.toFinset_card_of_nodup (nodup_validPages 0 sp.pt), ← Finset.card_range numPhysPages]
  refine Finset.card_le_card_of_injOn (fun v => ((s.held (t, v.toNat)).getD 0).toNat) ?_ ?_
  · intro v hv
    obtain ⟨n, i, rfl, hi, hk⟩ := hheld v (by simpa using hv)
    simpa [hk] using hi
  · intro v hv w hw heq
    obtain ⟨n, i, rfl, -, hk⟩ := hheld v (by simpa using hv)
    obtain ⟨m, j, rfl, -, hk'⟩ := hheld w (by simpa using hw)
    simp only [Int.toNat_natCast, hk, hk', Option.getD_some] at heq
    have := h.excl.unique _ _ _ hk (heq ▸ hk')
    rw [(Prod.mk.inj this).2]

end

/-- The page table of a thread. -/
def table (s : Vm) (t : Nat) : Table := ((s.thread t).bind UserThread.space).elim [] AddrSpace.pt

theorem table_eq {s : Vm} {t : Nat} {sp : AddrSpace} (h : s.space t = .ok sp) :
    s.table t = sp.pt := by
  obtain ⟨u, hu, hsp⟩ := space_eq_ok.mp h
  simp [table, hu, hsp]

/-- The number of pages that `LoadAThread` reads from the file of a thread. -/
def savedPages (env : Env) (s : Vm) (t : Nat) : Nat :=
  match (s.thread t).bind UserThread.saved with
  | none => 0
  | some f => match readNumber f env.buf 0 with
    | .ok (n, _) => n.toNat
    | .error _ => 0

/-- No page is loaded when memory is full, and the numbers of the pages that
`SaveAThread` writes are short. -/
def Roomy (cfg : Config) (s : Vm) : Op × Env → Prop
  | (.read addr _, env) | (.write addr _ _, env) => s.faults cfg env addr = true → ¬ s.full
  | (.suspend t, _) => ∀ v ∈ validPages 0 (s.table t), Short v
  | (.restore t, env) => s.savedPages env t ≤ s.mmBitmap.free.card
  | _ => True

instance (cfg : Config) (s : Vm) (op : Op × Env) : Decidable (s.Roomy cfg op) :=
  match op with
  | (.read _ _, _) | (.write _ _ _, _) => inferInstanceAs (Decidable (_ → _))
  | (.suspend _, _) => inferInstanceAs (Decidable (∀ v ∈ _, _))
  | (.restore _, _) => inferInstanceAs (Decidable (_ ≤ _))
  | (.create _, _) | (.run _, _) | (.exit, _) => inferInstanceAs (Decidable True)

section
variable {cfg : Config} (hR : cfg.useRPT = false) {env : Env} {s s' : Vm} {pend : Nat → List Int}

include hR

/-- A page fault with a free frame. -/
theorem Linear.fault (h : Linear s pend) (hu : s.inUser = true) {addr : Int} (hroom : ¬ s.full)
    (hn : s.pageTableTranslation cfg env (addr.tdiv pageSize) = .ok (s, .error .pageFault))
    (hx : s.pageFaultHandler cfg env addr = .ok s') : Linear s' pend := by
  obtain ⟨u, sp, hu, hex, hsp, hp⟩ := h.inUser hu
  obtain ⟨f, v, -, -, -, -, -, hcore, -, hT⟩ := h.toTables.fault hR hu hex hsp hp hroom hn hx
  refine ⟨hT, fun t u' hu' => ?_⟩
  obtain ⟨u₁, hu₁, hc⟩ := thread_of_core_some hcore hu'
  rw [thread_loadLinear hu] at hu₁
  split at hu₁
  · rename_i e
    cases hu₁
    refine SavedAt.of_core ?_ hc
    have := h.saved t u (e ▸ hu)
    unfold SavedAt at this ⊢
    split at this
    · rename_i hsv
      rw [hsv]
      exact this
    · rename_i hsv
      rw [hsv]
      exact ⟨this.1, rfl, this.2.2⟩
  · exact (h.saved t u₁ hu₁).of_core hc

/-- What follows an exception of an access. -/
theorem Linear.exception (h : Linear s pend) (hu : s.inUser = true) {addr : Int} {size : Nat}
    {w : Bool} {s₁ : Vm} {e : ExceptionType} (hroom : s.faults cfg env addr = true → ¬ s.full)
    (ht : s.translate cfg env addr size w = .ok (s₁, .error e))
    (hx : s₁.exceptionHandler cfg env e addr = .ok s') : Linear s' pend := by
  obtain ⟨u, sp, hu', hex, hsp, hp⟩ := h.inUser hu
  have hst : s.Stable cfg env (addr.tdiv pageSize) :=
    stable_linear hR h.toTables hu' hex hsp hp (addr.tdiv pageSize)
  rcases exception_cases hst ht hx with ⟨hn, hx⟩ | ⟨-, f, en, tlb, -, -, rfl⟩
  · exact h.fault hR hu (hroom (by simp [faults, hn])) hn hx
  · exact ⟨h.toTables.congr s.mainMemory tlb, h.saved⟩

/-- One step of the machine. -/
theorem Linear.next (h : Linear s pend) {op : Op × Env} (hs : s.Roomy cfg op)
    (hx : s.next cfg op = .ok s') : ∃ pend', Linear s' pend' := by
  obtain ⟨op, env⟩ := op
  unfold Vm.next at hx
  split at hx <;> [rename_i hen; (cases hx; exact ⟨_, h⟩)]
  cases op with
  | create p =>
    obtain ⟨i, -, h'⟩ := h.create hR hx
    exact ⟨_, h'⟩
  | run t =>
    cases hx
    exact ⟨_, (h.run t).2⟩
  | read addr size =>
    obtain ⟨⟨s₁, v⟩, h₁, hx⟩ := bind_eq_ok.mp hx
    cases hx
    obtain ⟨⟨s₂, r⟩, ht, h₁⟩ := bind_eq_ok.mp h₁
    cases r with
    | error e =>
      obtain ⟨s₃, h₃, h₁⟩ := bind_eq_ok.mp h₁
      cases h₁
      exact ⟨_, h.exception hR hen hs ht h₃⟩
    | ok pa =>
      obtain ⟨_, -, h₁⟩ := bind_eq_ok.mp h₁
      obtain ⟨data, -, h₁⟩ := bind_eq_ok.mp h₁
      cases h₁
      obtain ⟨u, sp, hu, hex, hsp, hp⟩ := h.inUser hen
      rcases translate_cases (fun _ => stable_linear hR h.toTables hu hex hsp hp _) ht with
        ⟨e, he, -⟩ | ⟨_, _, _, _, -, hc, -⟩ <;> [cases he; skip]
      exact ⟨_, h.of_core hc⟩
  | write addr size v =>
    obtain ⟨⟨s₁, b⟩, h₁, hx⟩ := bind_eq_ok.mp hx
    cases hx
    obtain ⟨⟨s₂, r⟩, ht, h₁⟩ := bind_eq_ok.mp h₁
    cases r with
    | error e =>
      obtain ⟨s₃, h₃, h₁⟩ := bind_eq_ok.mp h₁
      cases h₁
      exact ⟨_, h.exception hR hen hs ht h₃⟩
    | ok pa =>
      obtain ⟨_, -, h₁⟩ := bind_eq_ok.mp h₁
      obtain ⟨s₃, h₃, h₁⟩ := bind_eq_ok.mp h₁
      cases h₁
      obtain ⟨-, -, rfl⟩ := store_eq_ok.mp h₃
      obtain ⟨u, sp, hu, hex, hsp, hp⟩ := h.inUser hen
      rcases translate_cases (fun _ => stable_linear hR h.toTables hu hex hsp hp _) ht with
        ⟨e, he, -⟩ | ⟨_, _, _, _, -, hc, -⟩ <;> [cases he; skip]
      exact ⟨_, (h.toTables.of_core hc).congr _ _, (h.of_core hc).saved⟩
  | exit => exact ⟨_, (h.exit hR hen hx).2⟩
  | suspend t =>
    simp only [enabled, Bool.and_eq_true] at hen
    obtain ⟨u, hu, -, hex, hp⟩ := h.runnable hen.1.1.2
    obtain ⟨sp, hsp⟩ := Option.isSome_iff_exists.mp (by simpa [isUser, hu] using hen.1.2)
    have hle := h.toTables.length_validPages_le hu hex hsp
    have hs : ∀ v ∈ validPages 0 (s.table t), Short v := hs
    simp only [table, hu, hsp, Option.bind_some, Option.elim_some] at hs
    exact ⟨_, h.suspend hR hu hex hsp hp hs
      (short_of_lt (Nat.lt_of_le_of_lt hle (by decide))) hx⟩
  | restore t =>
    refine ⟨_, h.restore hR ?_ hx⟩
    simp only [enabled, Bool.and_eq_true] at hen
    obtain ⟨f, hf⟩ := Option.isSome_iff_exists.mp hen.2
    obtain ⟨u, hu, hsv⟩ := Option.bind_eq_some_iff.mp hf
    have hat := h.saved t u hu
    simp only [SavedAt, hsv] at hat
    obtain ⟨-, -, hlen, -⟩ := hat
    obtain ⟨buf, hn⟩ := hlen env.buf
    have hs : s.savedPages env t ≤ s.mmBitmap.free.card := hs
    simpa only [savedPages, hf, hn, Int.toNat_natCast] using hs

end

/-- Without `USE_RPT` the frames are used exclusively in every state of every
run that loads no page into a full memory and suspends only threads whose page
numbers are short. -/
theorem reachable_exclusive {cfg : Config} (hR : cfg.useRPT = false) {s : Vm}
    (h : ((System.ofFun (start cfg) (next cfg)).restrict (Roomy cfg)).Reachable s) :
    FramesExclusive s := by
  have : ∃ pend, Linear s pend := by
    refine h.invariant (I := fun s => ∃ pend, Linear s pend) ?_ ?_
    · rintro _ rfl
      exact ⟨_, linear_start⟩
    · rintro s op s' ⟨pend, hp⟩ ⟨hs, hx⟩
      exact hp.next hR hs hx
  obtain ⟨pend, hp⟩ := this
  exact hp.toTables.framesExclusive

/-- The pages of a thread are suspended and come back to the frames 0 and 1. -/
theorem reachable_exclusive_restored : ∃ s,
    ((System.ofFun (start ⟨false, false, false, false⟩) (next ⟨false, false, false, false⟩)).restrict
      (Roomy ⟨false, false, false, false⟩)).Reachable s ∧
    (s.held (1, 0) = some 0 ∧ s.held (1, 1) = some 1) ∧ FramesExclusive s := by
  obtain ⟨s, hr, hp⟩ := System.exists_reachable_guarded (start ⟨false, false, false, false⟩)
    (next ⟨false, false, false, false⟩) (Roomy ⟨false, false, false, false⟩)
    ([.create (some ⟨[], 0, 2⟩), .create (some ⟨[], 0, 1⟩), .run 1, .read 0 4, .read 128 4, .run 2,
      .suspend 1, .restore 1].map fun op => (op, .blank))
    (p := fun s => s.held (1, 0) = some 0 ∧ s.held (1, 1) = some 1) (by decide +kernel)
  exact ⟨s, hr, of_decide_eq_true hp, reachable_exclusive rfl hr⟩

/-- The runs of `trace` are runs of the machine. -/
theorem trace_next {cfg : Config} {x x' : Traced} {op : Op × Env}
    (h : trace cfg x op = .ok x') :
    x'.machine = x.machine ∨ next cfg x.machine op = .ok x'.machine := by
  obtain ⟨op, env⟩ := op
  unfold trace at h
  unfold next
  split at h <;> [rename_i hen; (cases h; exact .inl rfl)]
  rw [if_pos hen]
  cases op with
  | create p | exit =>
    obtain ⟨s, hs, h⟩ := bind_eq_ok.mp h
    cases h
    exact .inr hs
  | run t =>
    cases h
    exact .inr rfl
  | read addr size =>
    obtain ⟨⟨s, v⟩, hs, h⟩ := bind_eq_ok.mp h
    cases h
    exact .inr (bind_eq_ok.mpr ⟨_, hs, rfl⟩)
  | write addr size v =>
    obtain ⟨⟨s, b⟩, hs, h⟩ := bind_eq_ok.mp h
    cases h
    exact .inr (bind_eq_ok.mpr ⟨_, hs, rfl⟩)
  | suspend t | restore t =>
    cases h
    exact .inl rfl

theorem reachable_machine {cfg : Config} {x : Traced}
    (h : (System.ofFun (traceStart cfg) (trace cfg)).Reachable x) :
    (System.ofFun (start cfg) (next cfg)).Reachable x.machine := by
  refine h.invariant (I := fun x => (System.ofFun (start cfg) (next cfg)).Reachable x.machine) ?_ ?_
  · rintro _ rfl
    exact .init rfl
  · intro x op x' hx hs
    rcases trace_next hs with hm | hm
    · rwa [hm]
    · exact hx.step hm

/-- A byte is stored in the first page, and one in the page that shares its frame. -/
def sharedOps : List (Op × Env) :=
  ([.write 0 1 7, .write memorySize 1 9] : List Op).map fun op => (op, .blank)

/-- A page fault on a full memory: the index of page 0 in the table is taken for the
number of a frame, which page 0 has. -/
theorem exists_shared : ∃ x, (System.ofFun (traceStart ⟨false, false, false, false⟩)
      (trace ⟨false, false, false, false⟩)).Reachable x ∧
    (x.machine.held (1, 0) = some 0 ∧ x.machine.held (1, 128) = some 0) ∧
    ∃ y, sharedOps.foldlM (trace ⟨false, false, false, false⟩) x = .ok y ∧
      y.machine.inUser = true ∧ y.shadow y.machine.currentThread 0 = some 7#8 ∧
      (y.machine.readMem ⟨false, false, false, false⟩ .blank 0 1).toOption.bind Prod.snd = some 9 := by
  obtain ⟨x, hr, hp⟩ := System.exists_reachable (traceStart ⟨false, false, false, false⟩)
    (trace ⟨false, false, false, false⟩)
    (fillRun ⟨[], 0, 129⟩ [.read memorySize 1])
    (p := fun x => decide (x.machine.held (1, 0) = some 0 ∧ x.machine.held (1, 128) = some 0) &&
      (sharedOps.foldlM (trace ⟨false, false, false, false⟩) x).toOption.any fun y =>
        y.machine.inUser = true ∧ y.shadow y.machine.currentThread 0 = some 7#8 ∧
        (y.machine.readMem ⟨false, false, false, false⟩ .blank 0 1).toOption.bind Prod.snd = some 9)
    (by decide +kernel)
  obtain ⟨hheld, hshared⟩ := Bool.and_eq_true_iff.mp hp
  obtain ⟨y, hy, hq⟩ := exists_ok hshared
  exact ⟨x, hr, of_decide_eq_true hheld, y, hy, of_decide_eq_true hq⟩

theorem not_exclusive_full : ¬ ∀ s, (System.ofFun (start ⟨false, false, false, false⟩)
    (next ⟨false, false, false, false⟩)).Reachable s → FramesExclusive s := by
  intro hall
  obtain ⟨x, hr, ⟨h₁, h₂⟩, -⟩ := exists_shared
  exact absurd ((hall x.machine (reachable_machine hr)).unique _ _ _ h₁ h₂) (by decide)

end Nachos.Vm
