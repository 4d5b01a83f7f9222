import Nachos.Framework.Exclusive
import Nachos.Proof.Userprog.Dump

/-!
# Linear page tables and the frames

What the functions of virtual memory do without `USE_RPT`, and the invariant
`Tables`: the valid entries of the threads that have not exited hold distinct
frames, and `mmBitmap` has the bits of these (`Framework.Exclusive`). It holds
as long as a page is loaded into a free frame (`Tables.load`). An entry that is
not valid has no frame number, apart from the pages that are still to be
loaded for a suspended thread, so the swap branch of `pageTableTranslation` is
not taken (`stable_linear`).
-/

namespace Nachos

/-- The frame that a page of the thread holds. -/
def UserThread.held (u : UserThread) (v : Nat) : Option Int :=
  if u.exited then none
  else u.space.bind fun sp => (sp.pt[v]?).bind fun e => if e.valid then some e.ppn else none

theorem UserThread.held_of_core {u u' : UserThread} (h : u'.core = u.core) (v : Nat) :
    u'.held v = u.held v := by
  obtain ⟨h₁, -, h₃⟩ := of_core h
  have hc : ∀ w : UserThread, w.held v = if w.exited then none else
      (w.space.map AddrSpace.core).bind fun sp => (sp.pt[v]?).bind fun e =>
        if e.valid then some e.ppn else none := fun w => by
    unfold held
    cases w.space with
    | none => rfl
    | some sp =>
      simp only [Option.map_some, Option.bind_some, AddrSpace.core, Table.getElem?_core]
      cases sp.pt[v]? <;> rfl
  rw [hc, hc, h₁, h₃]

/-- The table of an address space has an entry for each page, none is dirty,
and a valid one is that of its page. -/
structure AddrSpace.Ok (sp : AddrSpace) : Prop where
  length : sp.pt.length = sp.program.numPages
  dirty : ∀ e ∈ sp.pt, e.dirty = false
  vpn : ∀ (n : Nat) e, sp.pt[n]? = some e → e.valid = true → e.vpn = n

/-- An entry that is not valid has no frame number, apart from those of the
pages `vs`, which are not valid. -/
structure Table.Idle (pt : Table) (vs : List Int) : Prop where
  nodup : vs.Nodup
  pending : ∀ v ∈ vs, ∃ (n : Nat) (e : TranslationEntry), v = n ∧ pt[n]? = some e ∧ e.valid = false
  idle : ∀ (n : Nat) e, pt[n]? = some e → e.valid = false → e.ppn = -1 ∨ (n : Int) ∈ vs

theorem Table.entry_of_core {t t' : Table} (h : t'.core = t.core) {n : Nat} {e : TranslationEntry}
    (he : t[n]? = some e) : ∃ e', t'[n]? = some e' ∧ e'.core = e.core := by
  have := congrArg (fun t : Table => t[n]?) h
  simp only [Table.getElem?_core, he, Option.map_some] at this
  exact Option.map_eq_some_iff.mp this

theorem Table.Idle.of_core {pt pt' : Table} {vs : List Int} (h : pt.Idle vs)
    (hc : pt'.core = pt.core) : pt'.Idle vs where
  nodup := h.nodup
  pending v hv := by
    obtain ⟨n, e, hn, he, hval⟩ := h.pending v hv
    obtain ⟨e', he', hce⟩ := entry_of_core hc he
    exact ⟨n, e', hn, he', (TranslationEntry.of_core hce).2.2.2.1.trans hval⟩
  idle n e' he' hval := by
    obtain ⟨e, he, hce⟩ := entry_of_core hc.symm he'
    obtain ⟨-, -, hp, hv, -⟩ := TranslationEntry.of_core hce
    rw [← hp]
    exact h.idle n e he (hv.trans hval)

theorem AddrSpace.Ok.of_core {sp sp' : AddrSpace} (h : sp.Ok) (hc : sp'.core = sp.core) : sp'.Ok := by
  have hp : sp'.program = sp.program := show sp'.core.program = sp.core.program by rw [hc]
  have hpt : sp'.pt.core = sp.pt.core := show sp'.core.pt = sp.core.pt by rw [hc]
  refine ⟨?_, fun e' he' => ?_, fun n e' he' hval => ?_⟩
  · rw [← Table.length_core, hpt, Table.length_core, hp]
    exact h.length
  · obtain ⟨n, hn⟩ := List.mem_iff_getElem?.mp he'
    obtain ⟨e, he, hce⟩ := Table.entry_of_core hpt.symm hn
    rw [← (TranslationEntry.of_core hce).2.2.2.2.2]
    exact h.dirty e (List.mem_of_getElem? he)
  · obtain ⟨e, he, hce⟩ := Table.entry_of_core hpt.symm he'
    obtain ⟨hv, -, -, hval', -⟩ := TranslationEntry.of_core hce
    rw [← hv]
    exact h.vpn n e he (hval'.trans hval)

namespace Vm

open Framework

/-! ## The invariant -/

/-- The frame that a page of a thread holds. -/
def held (s : Vm) (k : Nat × Nat) : Option Int := (s.thread k.1).bind fun u => u.held k.2

theorem held_eq_some {s : Vm} {t v : Nat} {p : Int} : s.held (t, v) = some p ↔
    ∃ u sp e, s.thread t = some u ∧ u.exited = false ∧ u.space = some sp ∧ sp.pt[v]? = some e ∧
      e.valid = true ∧ e.ppn = p := by
  unfold held UserThread.held
  constructor
  · intro h
    obtain ⟨u, hu, h⟩ := Option.bind_eq_some_iff.mp h
    split at h <;> [cases h; rename_i hex]
    obtain ⟨sp, hsp, h⟩ := Option.bind_eq_some_iff.mp h
    obtain ⟨e, he, h⟩ := Option.bind_eq_some_iff.mp h
    split at h <;> [rename_i hv; cases h]
    exact ⟨u, sp, e, hu, by simpa using hex, hsp, he, hv, Option.some.inj h⟩
  · rintro ⟨u, sp, e, hu, hex, hsp, he, hv, rfl⟩
    simp [hu, hex, hsp, he, hv]

/-- The frame numbers with a bit. -/
def used (b : Bitmap) (p : Int) : Prop := ∃ i : Nat, p = i ∧ i < numPhysPages ∧ b.bit i = true

/-- The tables, with the pages that are still to be loaded for each thread. -/
structure Tables (s : Vm) (pend : Nat → List Int) : Prop where
  wf : s.mmBitmap.Wf
  numBits : s.mmBitmap.numBits = numPhysPages
  excl : Exclusive.Inv s.held (used s.mmBitmap)
  space : ∀ t u sp, s.thread t = some u → u.space = some sp →
    sp.Ok ∧ (u.exited = false → sp.pt.Idle (pend t))

theorem held_of_core {s s' : Vm} (h : s'.core = s.core) : s'.held = s.held := by
  funext k
  have hk := thread_of_core h k.1
  unfold held
  cases h₁ : s.thread k.1 <;> cases h₂ : s'.thread k.1 <;> rw [h₁, h₂] at hk <;> simp at hk ⊢
  exact UserThread.held_of_core hk k.2

theorem Tables.of_core {s s' : Vm} {pend : Nat → List Int} (h : Tables s pend)
    (hc : s'.core = s.core) : Tables s' pend where
  wf := (Vm.of_core hc).1 ▸ h.wf
  numBits := (Vm.of_core hc).1 ▸ h.numBits
  excl := by
    rw [held_of_core hc, (Vm.of_core hc).1]
    exact h.excl
  space t u' sp' hu' hsp' := by
    obtain ⟨u, hu, hcu⟩ := thread_of_core_some hc hu'
    obtain ⟨hex, -, hsp⟩ := UserThread.of_core hcu
    rw [hsp', Option.map_some] at hsp
    obtain ⟨sp, hsp, hcs⟩ := Option.map_eq_some_iff.mp hsp.symm
    obtain ⟨hok, hidle⟩ := h.space t u sp hu hsp
    have hpt : sp'.pt.core = sp.pt.core := show sp'.core.pt = sp.core.pt by rw [hcs]
    exact ⟨hok.of_core hcs.symm, fun he => (hidle (hex ▸ he)).of_core hpt⟩

/-- Neither main memory nor the TLB matters. -/
theorem Tables.congr {s : Vm} {pend : Nat → List Int} (h : Tables s pend) (m : Nat → Byte)
    (tlb : Table) : Tables { s with mainMemory := m, tlb := tlb } pend :=
  ⟨h.wf, h.numBits, h.excl, h.space⟩

/-! ## Loading a page -/

theorem core_setSpace_congr (s : Vm) (tid : Nat) {sp sp' : AddrSpace} (h : sp'.core = sp.core) :
    (s.setSpace tid sp').core = (s.setSpace tid sp).core := by
  have harr : (s.setSpace tid sp').threadArray.map (Option.map UserThread.core) =
      (s.setSpace tid sp).threadArray.map (Option.map UserThread.core) := by
    apply List.ext_getElem?
    intro i
    simp only [setSpace, setThread, List.getElem?_map, List.getElem?_modify]
    by_cases e : tid = i
    · subst e
      cases s.threadArray[tid]? with
      | none => rfl
      | some o => cases o <;> simp [UserThread.core, h]
    · simp [e]
  simpa [core, setSpace, setThread] using harr

/-- The address space with the page `v` in the frame `f`. -/
def loadPage (sp : AddrSpace) (v : Nat) (f : Int) : AddrSpace :=
  { sp with pt := sp.pt.modify v fun e => { e with vpn := v, ppn := f, valid := true } }

/-- The machine with the page `v` of `tid` in the frame `f`. -/
def loadLinear (s : Vm) (b : Bitmap) (tid : Nat) (sp : AddrSpace) (v f : Nat) (page : List Byte) :
    Vm :=
  { s.setSpace tid (loadPage sp v f) with
    mmBitmap := b
    mainMemory := blit s.mainMemory (f * pageSize) page }

/-- `loadPageFrame` without `USE_RPT`, of a page that is not dirty. -/
theorem loadPageFrame_linear {cfg : Config} (hR : cfg.useRPT = false) {env : Env} {s s' : Vm}
    {tid f : Nat} {vpn fileAddr : Int} {file : List Byte} {sp : AddrSpace}
    (hsp : s.space tid = .ok sp) (hok : sp.Ok)
    (h : s.loadPageFrame cfg env tid vpn f fileAddr file = .ok s') :
    ∃ v : Nat, vpn = v ∧ v < sp.pt.length ∧ 0 ≤ fileAddr ∧
      s'.core = (s.loadLinear s.mmBitmap tid sp v f
        ((file.drop fileAddr.toNat).take pageSize)).core := by
  obtain ⟨s₁, h₁, h⟩ := bind_eq_ok.mp h
  obtain ⟨page, h₂, h⟩ := bind_eq_ok.mp h
  obtain ⟨hp, rfl⟩ := readAt_eq_ok.mp h₂
  obtain ⟨-, -, rfl⟩ := store_eq_ok.mp h
  rw [hR] at h₁
  simp only [Bool.false_eq_true, ite_false] at h₁
  obtain ⟨cur, -, h₁⟩ := bind_eq_ok.mp h₁
  obtain ⟨sp', hsp', h₁⟩ := bind_eq_ok.mp h₁
  rw [hsp] at hsp'
  cases hsp'
  obtain ⟨pt, hpt, h₁⟩ := bind_eq_ok.mp h₁
  obtain ⟨hpos, hlt, rfl⟩ := Table.upd_eq_ok.mp hpt
  obtain ⟨pt', hpt', h₁⟩ := bind_eq_ok.mp h₁
  obtain ⟨v, rfl⟩ := Int.eq_ofNat_of_zero_le hpos
  rw [Int.toNat_natCast] at hlt hpt'
  have hcore : pt'.core = (loadPage sp v f).pt.core := by
    split at hpt'
    · exact Table.updateFIFOFlag_core hpt'
    · cases hpt'; rfl
  -- The entry was not dirty, and is not now.
  have hdirty : (pt'.entry env.stray (v : Int)).dirty = false := by
    have hv : (loadPage sp v f).pt[v]? =
        some { sp.pt.nth v with vpn := v, ppn := f, valid := true } := by
      simp [loadPage, List.getElem?_eq_getElem hlt, Table.nth, List.getD_eq_getElem?_getD]
    obtain ⟨e', he', hce⟩ := Table.entry_of_core hcore hv
    have hd := (TranslationEntry.of_core hce).2.2.2.2.2
    have hmem : sp.pt.nth v ∈ sp.pt := by
      rw [Table.nth, List.getD_eq_getElem?_getD, List.getElem?_eq_getElem hlt]
      exact List.getElem_mem hlt
    simpa [Table.entry, List.getD_eq_getElem?_getD, he', hok.dirty _ hmem] using hd
  simp only [hdirty, Bool.false_eq_true, ite_false] at h₁
  cases h₁
  refine ⟨v, rfl, hlt, hp, ?_⟩
  have hsp : AddrSpace.core { sp with pt := pt' } = (loadPage sp v f).core := by
    simp only [AddrSpace.core, hcore]
    rfl
  have := core_setSpace_congr s tid hsp
  simp only [core, loadLinear, Vm.mk.injEq] at this ⊢
  refine ⟨rfl, ?_, this.2.2⟩
  rfl

theorem used_put {b : Bitmap} (hw : b.Wf) (hn : b.numBits = numPhysPages) {f : Nat}
    (hf : f < numPhysPages) (p : Int) : used (b.put f true) p ↔ p = f ∨ used b p := by
  have hbit := Bitmap.bit_put (hw.lt (hn ▸ hf)) true
  unfold used
  constructor
  · rintro ⟨i, rfl, hi, hb⟩
    by_cases e : i = f
    · exact .inl (by rw [e])
    · rw [hbit, if_neg e] at hb
      exact .inr ⟨i, rfl, hi, hb⟩
  · rintro (rfl | ⟨i, rfl, hi, hb⟩)
    · exact ⟨f, rfl, hf, by rw [hbit, if_pos rfl]⟩
    · refine ⟨i, rfl, hi, ?_⟩
      rw [hbit]
      split
      · rfl
      · exact hb

theorem getElem?_loadPage (sp : AddrSpace) (v : Nat) (f : Int) (n : Nat) :
    (loadPage sp v f).pt[n]? = if n = v then
      (sp.pt[n]?).map fun e => { e with vpn := v, ppn := f, valid := true } else sp.pt[n]? := by
  simp only [loadPage, List.getElem?_modify]
  by_cases e : v = n
  · subst e; simp
  · simp [e, Ne.symm e]

theorem ok_loadPage {sp : AddrSpace} (h : sp.Ok) (v : Nat) (f : Int) : (loadPage sp v f).Ok := by
  refine ⟨by simpa [loadPage] using h.length, fun e he => ?_, fun n e hn hval => ?_⟩
  · obtain ⟨n, hn⟩ := List.mem_iff_getElem?.mp he
    rw [getElem?_loadPage] at hn
    split at hn
    · obtain ⟨e', he', rfl⟩ := Option.map_eq_some_iff.mp hn
      exact h.dirty e' (List.mem_of_getElem? he')
    · exact h.dirty e (List.mem_of_getElem? hn)
  · rw [getElem?_loadPage] at hn
    split at hn
    · rename_i e'
      obtain ⟨-, -, rfl⟩ := Option.map_eq_some_iff.mp hn
      exact congrArg Int.ofNat e'.symm
    · exact h.vpn n e hn hval

theorem idle_loadPage {sp : AddrSpace} {vs : List Int} (h : sp.pt.Idle vs) (v : Nat) (f : Int) :
    (loadPage sp v f).pt.Idle (vs.erase v) where
  nodup := h.nodup.erase _
  pending w hw := by
    obtain ⟨hne, hw⟩ := h.nodup.mem_erase_iff.mp hw
    obtain ⟨n, e, rfl, he, hval⟩ := h.pending w hw
    refine ⟨n, e, rfl, ?_, hval⟩
    rw [getElem?_loadPage, if_neg (fun hc => hne (by rw [hc])), he]
  idle n e he hval := by
    rw [getElem?_loadPage] at he
    split at he
    · obtain ⟨e', -, rfl⟩ := Option.map_eq_some_iff.mp he
      cases hval
    · rename_i hne
      refine (h.idle n e he hval).imp_right fun hm => ?_
      exact h.nodup.mem_erase_iff.mpr ⟨fun hc => hne (Int.ofNat.inj hc), hm⟩

theorem thread_loadLinear {s : Vm} {t : Nat} {u : UserThread} (hu : s.thread t = some u)
    (sp : AddrSpace) (b : Bitmap) (v f : Nat) (page : List Byte) (w : Nat) :
    (s.loadLinear b t sp v f page).thread w =
      if w = t then some { u with space := some (loadPage sp v f) } else s.thread w := by
  refine (thread_setSpace s t (loadPage sp v f) w).trans ?_
  by_cases e : w = t
  · subst e
    simp [hu]
  · rw [if_neg e, if_neg e]

theorem held_loadLinear {s : Vm} {t v f : Nat} {u : UserThread} {sp : AddrSpace}
    {e : TranslationEntry} (hu : s.thread t = some u) (hex : u.exited = false)
    (hsp : u.space = some sp) (he : sp.pt[v]? = some e) (b : Bitmap) (page : List Byte)
    (k : Nat × Nat) :
    (s.loadLinear b t sp v f page).held k = if k = (t, v) then some (f : Int) else s.held k := by
  obtain ⟨w, n⟩ := k
  simp only [held, thread_loadLinear hu]
  by_cases e' : w = t
  · subst e'
    by_cases hn : n = v
    · subst hn
      simp [UserThread.held, hex, getElem?_loadPage, he]
    · simp [UserThread.held, hex, hu, hsp, getElem?_loadPage, hn]
  · simp [e']

/-- A page that is not valid is loaded into a free frame. -/
theorem Tables.load {s : Vm} {pend : Nat → List Int} (h : Tables s pend) {t v f : Nat}
    {u : UserThread} {sp : AddrSpace} {e : TranslationEntry} (hu : s.thread t = some u)
    (hex : u.exited = false) (hsp : u.space = some sp) (he : sp.pt[v]? = some e)
    (hval : e.valid = false) (hf : f < numPhysPages) (hfree : s.mmBitmap.bit f = false)
    (page : List Byte) : Tables (s.loadLinear (s.mmBitmap.put f true) t sp v f page)
      (Function.update pend t ((pend t).erase v)) := by
  have hheld := held_loadLinear (f := f) hu hex hsp he (s.mmBitmap.put f true) page
  obtain ⟨hok, hidle⟩ := h.space t u sp hu hsp
  refine ⟨h.wf.put f true, h.numBits, h.excl.take (k := (t, v)) (f := (f : Int)) ?_ ?_ ?_ ?_
    (used_put h.wf h.numBits hf), fun w u' sp' hu' hsp' => ?_⟩
  · simp [held, hu, UserThread.held, hex, hsp, he, hval]
  · rintro ⟨i, hi, -, hb⟩
    rw [← Int.ofNat.inj hi, hfree] at hb
    cases hb
  · rw [hheld, if_pos rfl]
  · intro k hk
    rw [hheld, if_neg hk]
  · rw [thread_loadLinear hu] at hu'
    split at hu'
    · rename_i e'
      cases hu'
      cases hsp'
      refine ⟨ok_loadPage hok v f, fun _ => ?_⟩
      rw [e', Function.update_self]
      exact idle_loadPage (hidle hex) v f
    · rename_i e'
      rw [Function.update_of_ne e']
      exact h.space w u' sp' hu' hsp'

/-! ## Accesses -/

section
variable {cfg : Config} (hR : cfg.useRPT = false) {env : Env} {s s' : Vm} {pend : Nat → List Int}

/-- The swap branch needs an entry of the table. -/
theorem swap_bounds {sp sp' : AddrSpace} {vpn ppn : Int} (h : s.swap env sp vpn ppn = .ok (s', sp')) :
    0 ≤ vpn ∧ vpn.toNat < sp.pt.length := by
  obtain ⟨sp₁, h₁, h⟩ := bind_eq_ok.mp h
  obtain ⟨pt, hpt, -⟩ := bind_eq_ok.mp h
  obtain ⟨hpos, hlt, -⟩ := Table.upd_eq_ok.mp hpt
  refine ⟨hpos, ?_⟩
  split at h₁
  · cases h₁
    exact hlt
  · obtain ⟨page, -, h₁⟩ := bind_eq_ok.mp h₁
    obtain ⟨vmFile, -, h₁⟩ := bind_eq_ok.mp h₁
    obtain ⟨pt', hpt', h₁⟩ := bind_eq_ok.mp h₁
    obtain ⟨-, -, rfl⟩ := Table.upd_eq_ok.mp hpt'
    cases h₁
    simpa using hlt

theorem entry_eq (stray : Int → TranslationEntry) {pt : Table} {v : Nat} {e : TranslationEntry}
    (h : pt[v]? = some e) : pt.entry stray v = e := by
  simp [Table.entry, List.getD_eq_getElem?_getD, h]

include hR

/-- The walk of the table of a thread that has no pages to be loaded. -/
theorem translation_linear (h : Tables s pend) {u : UserThread} {sp : AddrSpace} {vpn : Int}
    {r : Except ExceptionType (Int × TranslationEntry)} (hu : s.thread s.currentThread = some u)
    (hex : u.exited = false) (hsp : u.space = some sp) (hp : pend s.currentThread = [])
    (hx : s.pageTableTranslation cfg env vpn = .ok (s', r)) :
    s' = s ∧ (r = .error .pageFault → (sp.pt.entry env.stray vpn).valid = false) ∧
      ∀ f e, r = .ok (f, e) → vpn < sp.program.numPages ∧ e = sp.pt.entry env.stray vpn ∧
        e.valid = true ∧ f = e.ppn := by
  simp only [pageTableTranslation, hR, Bool.false_eq_true, ite_false] at hx
  obtain ⟨sp', hsp', hx⟩ := bind_eq_ok.mp hx
  obtain ⟨u', hu', hsp'⟩ := space_eq_ok.mp hsp'
  rw [hu] at hu'
  cases hu'
  rw [hsp] at hsp'
  cases hsp'
  split at hx
  · cases hx
    exact ⟨rfl, nofun, nofun⟩
  · rename_i hlt
    simp only at hx
    split at hx
    · rename_i hval
      cases hx
      refine ⟨rfl, nofun, fun f e he => ?_⟩
      cases he
      exact ⟨by omega, rfl, hval, rfl⟩
    · rename_i hval
      split at hx
      · -- No entry of this table is swapped out.
        rename_i hppn
        obtain ⟨⟨s₁, sp₁⟩, h₁, -⟩ := bind_eq_ok.mp hx
        obtain ⟨hpos, hlen⟩ := swap_bounds h₁
        obtain ⟨v, rfl⟩ := Int.eq_ofNat_of_zero_le hpos
        rw [Int.toNat_natCast] at hlen
        have he := List.getElem?_eq_getElem hlen
        rw [entry_eq env.stray he] at hval hppn
        have := ((h.space _ u sp hu hsp).2 hex).idle v _ he (by simpa using hval)
        rw [hp] at this
        rcases this with hc | hc
        · exact absurd hc hppn
        · cases hc
      · cases hx
        exact ⟨rfl, fun _ => by simpa using hval, nofun⟩

/-- A page that holds a frame is found there. -/
theorem Tables.found (h : Tables s pend) {v : Nat} {p : Int}
    (hk : s.held (s.currentThread, v) = some p) :
    ∃ e, s.pageTableTranslation cfg env v = .ok (s, .ok (p, e)) := by
  obtain ⟨u, sp, e, hu, -, hsp, he, hv, rfl⟩ := held_eq_some.mp hk
  have hlt : v < sp.program.numPages := by
    rw [← (h.space _ u sp hu hsp).1.length]
    exact (List.getElem?_eq_some_iff.mp he).1
  refine ⟨e, ?_⟩
  simp only [pageTableTranslation, hR, Bool.false_eq_true, ite_false, linearTranslation,
    space_eq_ok.mpr ⟨u, hu, hsp⟩, ok_bind, entry_eq env.stray he, hv, ite_true]
  rw [if_neg (by omega)]
  rfl

theorem stable_linear (h : Tables s pend) {u : UserThread} {sp : AddrSpace}
    (hu : s.thread s.currentThread = some u) (hex : u.exited = false) (hsp : u.space = some sp)
    (hp : pend s.currentThread = []) (vpn : Int) : s.Stable cfg env vpn :=
  fun _ _ hx => (translation_linear hR h hu hex hsp hp hx).1

/-- A page fault with a free frame. -/
theorem Tables.fault (h : Tables s pend) {u : UserThread} {sp : AddrSpace} {addr : Int}
    (hu : s.thread s.currentThread = some u) (hex : u.exited = false) (hsp : u.space = some sp)
    (hp : pend s.currentThread = []) (hroom : ¬ s.full)
    (hn : s.pageTableTranslation cfg env (addr.tdiv pageSize) = .ok (s, .error .pageFault))
    (hx : s.pageFaultHandler cfg env addr = .ok s') :
    ∃ f v : Nat, addr.tdiv pageSize = v ∧ f < numPhysPages ∧ s.mmBitmap.bit f = false ∧
      s.held (s.currentThread, v) = none ∧ 0 ≤ sp.program.inFileAddr + (v : Int) * pageSize ∧
      s'.core = (s.loadLinear (s.mmBitmap.put f true) s.currentThread sp v f
        ((sp.program.executable.drop (sp.program.inFileAddr + (v : Int) * pageSize).toNat).take
          pageSize)).core ∧
      (∀ k, s'.held k = if k = (s.currentThread, v) then some (f : Int) else s.held k) ∧
      Tables s' pend := by
  obtain ⟨⟨s₁, p⟩, h₁, hx⟩ := bind_eq_ok.mp hx
  rcases pageFrame_cases h.wf h₁ with ⟨f, rfl, hf, -, hfree, rfl⟩ | ⟨hfull, -⟩ <;>
    [rw [h.numBits] at hf; exact absurd (fun i hi => hfull i (by rw [h.numBits]; exact hi)) hroom]
  have hspace : ({ s with mmBitmap := s.mmBitmap.put f true } : Vm).space s.currentThread = .ok sp :=
    space_eq_ok.mpr ⟨u, hu, hsp⟩
  obtain ⟨sp', hsp', hx⟩ := bind_eq_ok.mp hx
  rw [hspace] at hsp'
  cases hsp'
  obtain ⟨a, ha, hx⟩ := bind_eq_ok.mp hx
  obtain ⟨_, -, ha⟩ := bind_eq_ok.mp ha
  cases ha
  obtain ⟨hok, -⟩ := h.space _ u sp hu hsp
  obtain ⟨v, hv, hlt, hpos, hcore⟩ := loadPageFrame_linear hR hspace hok hx
  rw [hv] at hn hpos hcore
  have he := List.getElem?_eq_getElem hlt
  have hval := (translation_linear hR h hu hex hsp hp hn).2.1 rfl
  rw [entry_eq env.stray he] at hval
  refine ⟨f, v, hv, hf, hfree, ?_, hpos, hcore, fun k => ?_, ?_⟩
  · simp [held, hu, UserThread.held, hex, hsp, he, hval]
  · rw [held_of_core hcore]
    exact held_loadLinear hu hex hsp he _ _ k
  · have := h.load hu hex hsp he hval hf hfree ((sp.program.executable.drop
      (sp.program.inFileAddr + (v : Int) * pageSize).toNat).take pageSize)
    rw [hp, List.erase_nil, ← hp, Function.update_eq_self] at this
    exact this.of_core hcore

end

end Vm

end Nachos
