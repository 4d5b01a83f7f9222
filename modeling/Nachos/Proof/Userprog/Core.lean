import Mathlib.Tactic.Common
import Nachos.Impl.Userprog.Process
import Nachos.Proof.Lib.Bitmap

/-!
# Virtual memory without the flags

`FIFOFlag` and `LRUFlag` choose victims and nothing else. `core` erases them
everywhere, and the lemmas here say what each function of virtual memory does
up to `core`: `s'.core = (...).core`. An invariant that does not look at the
flags then follows the updates on the right-hand side only.
-/

namespace Nachos

/-- The entry without its flags. -/
def TranslationEntry.core (e : TranslationEntry) : TranslationEntry :=
  { e with fifoFlag := -1, lruFlag := -1 }

theorem TranslationEntry.of_core {e e' : TranslationEntry} (h : e'.core = e.core) :
    e'.vpn = e.vpn ∧ e'.tID = e.tID ∧ e'.ppn = e.ppn ∧ e'.valid = e.valid ∧ e'.readOnly = e.readOnly ∧
      e'.dirty = e.dirty := by
  cases e
  cases e'
  simp_all [core]

namespace Table

/-- The table without its flags. -/
def core (t : Table) : Table := t.map TranslationEntry.core

@[simp] theorem length_core (t : Table) : t.core.length = t.length := List.length_map ..

theorem getElem?_core (t : Table) (i : Nat) : t.core[i]? = (t[i]?).map TranslationEntry.core := by
  simp [core]

theorem nth_core (t : Table) (i : Nat) : t.core.nth i = (t.nth i).core := by
  rw [nth, nth, List.getD_eq_getElem?_getD, List.getD_eq_getElem?_getD, getElem?_core]
  cases t[i]? <;> rfl

theorem nth_modify (t : Table) (f : TranslationEntry → TranslationEntry) (k i : Nat)
    (hk : k < t.length) :
    nth (t.modify k f) i = if i = k then f (t.nth i) else t.nth i := by
  simp only [nth, List.getD_eq_getElem?_getD, List.getElem?_modify]
  by_cases e : k = i
  · subst e; simp [hk]
  · simp [e, Ne.symm e]

theorem upd_eq_ok {t t' : Table} {i : Int} {f : TranslationEntry → TranslationEntry} :
    t.upd i f = .ok t' ↔ 0 ≤ i ∧ i.toNat < t.length ∧ t' = t.modify i.toNat f := by
  simp [upd, bind_eq_ok, and_assoc, eq_comm (a := t')]

/-- What an update of an entry does not touch. -/
theorem map_modify {β : Type*} (g : TranslationEntry → β) (t : Table) (k : Nat)
    {f : TranslationEntry → TranslationEntry} (hf : ∀ e, g (f e) = g e) :
    (t.modify k f).map g = t.map g := by
  apply List.ext_getElem?
  intro i
  rw [List.getElem?_map, List.getElem?_map, List.getElem?_modify]
  by_cases e : k = i
  · subst e
    simp only [ite_true]
    cases t[k]? <;> simp [hf]
  · simp [e]

theorem core_modify_flags (t : Table) (k : Nat) {f : TranslationEntry → TranslationEntry}
    (hf : ∀ e, (f e).core = e.core) : core (t.modify k f) = t.core :=
  map_modify TranslationEntry.core t k hf

theorem updateFIFOFlag_core {stray : Int → TranslationEntry} {t t' : Table} {pos : Int} {len : Nat}
    (h : t.updateFIFOFlag stray pos len = .ok t') : t'.core = t.core := by
  obtain ⟨n, -, h⟩ := bind_eq_ok.mp h
  obtain ⟨-, -, rfl⟩ := upd_eq_ok.mp h
  exact core_modify_flags t _ fun _ => rfl

theorem updateLRUFlag_core {stray : Int → TranslationEntry} {t t' : Table} {pos : Int} {len : Nat}
    (h : t.updateLRUFlag stray pos len = .ok t') : t'.core = t.core := by
  obtain ⟨n, -, h⟩ := bind_eq_ok.mp h
  obtain ⟨-, -, rfl⟩ := upd_eq_ok.mp h
  exact core_modify_flags t _ fun _ => rfl

theorem findOneLoop_lt (cfg : Config) {targetv : Int} {targeti i n : Nat} (es : Table)
    (ht : targeti < n) (hi : i + es.length ≤ n) : findOneLoop cfg targetv targeti i es < n := by
  induction es generalizing targetv targeti i with
  | nil => exact ht
  | cons e es ih =>
    rw [List.length_cons] at hi
    refine ih ?_ (by omega)
    split <;> split <;> first | exact ht | (simp only; omega)

/-- The victim is an index of the table. -/
theorem findOneToReplace_lt (cfg : Config) {es : Table} (h : 0 < es.length) :
    findOneToReplace cfg es < es.length :=
  findOneLoop_lt cfg es h (by omega)

/-- What `updateTLB` does: one slot gets the entry. -/
theorem updateTLB_core {cfg : Config} {stray : Int → TranslationEntry} {tlb tlb' : Table}
    {e : TranslationEntry} (h : tlb.updateTLB cfg stray e = .ok tlb') :
    ∃ k < tlb.length, tlb'.core = core (tlb.modify k fun _ => e) := by
  obtain ⟨t, ht, h⟩ := bind_eq_ok.mp h
  obtain ⟨-, hk, rfl⟩ := upd_eq_ok.mp ht
  refine ⟨_, hk, ?_⟩
  split at h
  · exact updateFIFOFlag_core h
  · cases h; rfl

/-! ## The flags -/

/-- A bound of the flags of the valid entries but the one at `pos`. -/
theorem maxFlag_bounds {flag : TranslationEntry → Int} {pos num B : Int} {i : Nat} {es : Table}
    (hn : num ≤ B) (h : ∀ j e, es[j]? = some e → ((i + j : Nat) : Int) ≠ pos → e.valid = true →
      flag e ≤ B) : num ≤ maxFlag flag pos num i es ∧ maxFlag flag pos num i es ≤ B := by
  induction es generalizing num i with
  | nil => exact ⟨Int.le_refl _, hn⟩
  | cons e es ih =>
    have hrest : ∀ j e', es[j]? = some e' → ((i + 1 + j : Nat) : Int) ≠ pos → e'.valid = true →
        flag e' ≤ B := fun j e' he hj => h (j + 1) e' he (by rwa [← Nat.add_assoc, Nat.add_right_comm])
    have he := h 0 e rfl
    simp only [maxFlag]
    split
    · rename_i hc
      simp only [Bool.and_eq_true, decide_eq_true_eq] at hc
      have := he hc.2 hc.1
      split
      · exact ih hn hrest
      · obtain ⟨h₁, h₂⟩ := ih this hrest
        exact ⟨by omega, h₂⟩
    · exact ih hn hrest

theorem getElem?_view (stray : Int → TranslationEntry) (t : Table) (len j : Nat) :
    (t.view stray len)[j]? = if j < len then some (t.entry stray j) else none := by
  unfold view entry
  rw [if_pos (Int.natCast_nonneg j), Int.toNat_natCast, List.getD_eq_getElem?_getD,
    List.getElem?_append, List.length_take, List.getElem?_take]
  by_cases hl : j < len
  · by_cases hj : j < t.length
    · simp [hj, hl]
    · have hr : t.length + (j - min len t.length) = j := by omega
      have hlt : j - min len t.length < len - t.length := by omega
      rw [if_neg (by omega), if_pos hl, List.getElem?_map, List.getElem?_range' hlt]
      simp [hr, Nat.not_lt.mp hj]
  · rw [if_neg (by omega), if_neg hl, List.getElem?_eq_none]
    rw [List.length_map, List.length_range']
    omega

theorem entry_eq_nth (stray : Int → TranslationEntry) {t : Table} {j : Nat} (hj : j < t.length) :
    t.entry stray j = t.nth j := by
  simp [entry, nth, hj]

/-- The entry of a page that is loaded: `f`, and a flag when the counters of the
other entries have room. -/
theorem load_entry (cfg : Config) (stray : Int → TranslationEntry) {t : Table} {k : Nat} (len : Nat)
    (B : Int) (f : TranslationEntry → TranslationEntry) (hk : k < t.length) (hB : -1 ≤ B) (hmax : B < intMax)
    (h : cfg.fifoReplace = true → ∀ j < len, j ≠ k → (t.entry stray j).valid = true →
      (t.entry stray j).fifoFlag ≤ B) :
    ∃ t₁ t₂, t.upd k f = .ok t₁ ∧
      (if cfg.fifoReplace then t₁.updateFIFOFlag stray k len else pure t₁) = .ok t₂ ∧
      t₂.length = t.length ∧ (∀ i ≠ k, t₂.nth i = t.nth i) ∧ (t₂.nth k).core = (f (t.nth k)).core ∧
      (cfg.fifoReplace = true → (t₂.nth k).fifoFlag ≤ B + 1) := by
  obtain ⟨t₁, ht₁⟩ : ∃ t₁ : Table, t₁ = t.modify k f := ⟨_, rfl⟩
  have hl : t₁.length = t.length := by rw [ht₁, List.length_modify]
  have hn : ∀ i, t₁.nth i = if i = k then f (t.nth i) else t.nth i := fun i => by
    rw [ht₁, nth_modify _ _ _ _ hk]
  have hupd : t.upd k f = .ok t₁ := upd_eq_ok.mpr ⟨Int.natCast_nonneg k, hk, ht₁⟩
  cases hF : cfg.fifoReplace with
  | false =>
    refine ⟨t₁, t₁, hupd, by simp, hl, fun i hi => ?_, ?_, by simp⟩
    · rw [hn, if_neg hi]
    · rw [hn, if_pos rfl]
  | true =>
    have hentry : ∀ j : Nat, j ≠ k → t₁.entry stray j = t.entry stray j := fun j hj => by
      by_cases hjl : j < t.length
      · rw [entry_eq_nth _ hjl, entry_eq_nth _ (hl ▸ hjl), hn, if_neg hj]
      · simp [entry, hl, Nat.not_lt.mp hjl]
    obtain ⟨num, hnum⟩ : ∃ num, num = maxFlag (·.fifoFlag) k (-1) 0 (t₁.view stray len) := ⟨_, rfl⟩
    have hbound : -1 ≤ num ∧ num ≤ B := by
      rw [hnum]
      refine maxFlag_bounds hB fun j e he hj hv => ?_
      rw [Nat.zero_add] at hj
      rw [getElem?_view] at he
      split at he
      · rename_i hlt
        cases he
        rw [hentry j (by omega)] at hv ⊢
        exact h hF j hlt (by omega) hv
      · cases he
    have hn₂ : ∀ i, nth (t₁.modify k fun e => { e with fifoFlag := num + 1 }) i =
        if i = k then { t₁.nth i with fifoFlag := num + 1 } else t₁.nth i := fun i =>
      nth_modify _ _ _ _ (hl ▸ hk)
    refine ⟨t₁, t₁.modify k fun e => { e with fifoFlag := num + 1 }, hupd, ?_, ?_, fun i hi => ?_, ?_,
      fun _ => ?_⟩
    · unfold intMax at hmax
      rw [if_pos rfl, updateFIFOFlag, ← hnum, i32, defined_of (by omega)]
      exact upd_eq_ok.mpr ⟨Int.natCast_nonneg k, hl ▸ hk, rfl⟩
    · rw [List.length_modify, hl]
    · rw [hn₂, if_neg hi, hn, if_neg hi]
    · rw [hn₂, if_pos rfl, hn, if_pos rfl]
      rfl
    · rw [hn₂, if_pos rfl]
      simp only
      omega

end Table

/-- Nothing was left in the buffers and behind the tables. -/
def Env.blank : Env := ⟨fun _ => .reset, List.replicate 100 0, by decide⟩

/-! ## The machine -/

theorem Table.nth_of_core {t t' : Table} (h : t'.core = t.core) (i : Nat) :
    (t'.nth i).core = (t.nth i).core := by
  rw [← nth_core, ← nth_core, h]

def AddrSpace.core (sp : AddrSpace) : AddrSpace := { sp with pt := sp.pt.core }

def UserThread.core (t : UserThread) : UserThread := { t with space := t.space.map AddrSpace.core }

theorem UserThread.of_core {u u' : UserThread} (h : u'.core = u.core) :
    u'.exited = u.exited ∧ u'.saved = u.saved ∧
      u'.space.map AddrSpace.core = u.space.map AddrSpace.core := by
  cases u
  cases u'
  simp_all [core]

namespace Vm

/-- The machine without the flags. -/
def core (s : Vm) : Vm :=
  { s with
    pt := s.pt.core
    tlb := s.tlb.core
    threadArray := s.threadArray.map (Option.map UserThread.core) }

theorem of_core {s s' : Vm} (h : s'.core = s.core) :
    s'.mmBitmap = s.mmBitmap ∧ s'.mainMemory = s.mainMemory ∧ s'.pt.core = s.pt.core ∧
      s'.tlb.core = s.tlb.core ∧ s'.currentThread = s.currentThread := by
  cases s
  cases s'
  simp_all [core]

theorem core_thread (s : Vm) (tid : Nat) : s.core.thread tid = (s.thread tid).map UserThread.core := by
  simp only [thread, core, List.getElem?_map]
  cases s.threadArray[tid]? <;> rfl

theorem thread_of_core {s s' : Vm} (h : s'.core = s.core) (t : Nat) :
    (s'.thread t).map UserThread.core = (s.thread t).map UserThread.core := by
  rw [← core_thread, ← core_thread, h]

theorem isUser_of_core {s s' : Vm} (h : s'.core = s.core) (t : Nat) : s'.isUser t = s.isUser t := by
  have ht := thread_of_core h t
  unfold isUser
  cases h₁ : s.thread t <;> cases h₂ : s'.thread t <;> rw [h₁, h₂] at ht <;> simp at ht ⊢
  simpa using congrArg Option.isSome (UserThread.of_core ht).2.2

theorem thread_of_core_some {s s' : Vm} (h : s'.core = s.core) {t : Nat} {u' : UserThread}
    (hu : s'.thread t = some u') : ∃ u, s.thread t = some u ∧ u'.core = u.core := by
  have ht := thread_of_core h t
  rw [hu, Option.map_some] at ht
  obtain ⟨u, hu, hc⟩ := Option.map_eq_some_iff.mp ht.symm
  exact ⟨u, hu, hc.symm⟩

theorem thread_setThread (s : Vm) (tid : Nat) (f : UserThread → UserThread) (t : Nat) :
    (s.setThread tid f).thread t = if t = tid then (s.thread t).map f else s.thread t := by
  simp only [thread, setThread, List.getElem?_modify]
  by_cases e : tid = t
  · subst e
    simp only [ite_true]
    cases s.threadArray[tid]? with
    | none => rfl
    | some o => cases o <;> rfl
  · simp [e, Ne.symm e]

theorem thread_create {cfg : Config} {s s' : Vm} {p : Option Program}
    (h : s.create cfg p = .ok s') :
    ∃ i, s.thread i = none ∧ s' = { s with threadArray := s'.threadArray } ∧
      ∀ t, s'.thread t =
        if t = i then some ⟨p.map (AddrSpace.new cfg), none, false⟩ else s.thread t := by
  unfold create at h
  split at h <;> [skip; cases h]
  rename_i i arr ha
  cases h
  obtain ⟨hi, rfl⟩ := addAThread_eq_some ha
  have hlt := (List.getElem?_eq_some_iff.mp hi).1
  refine ⟨i, by simp [thread, hi], rfl, fun t => ?_⟩
  by_cases e : i = t
  · subst e; simp [thread, hlt]
  · simp [thread, List.getElem?_set_ne e, Ne.symm e]

/-- After a switch a thread that exited is gone. -/
theorem thread_run (cfg : Config) (s : Vm) (n t : Nat) :
    (s.run cfg n).thread t =
      if t = s.currentThread ∧ (s.thread t).any UserThread.exited = true then none
      else s.thread t := by
  have hrun : (s.run cfg n).threadArray =
      if (s.thread s.currentThread).any UserThread.exited = true then
        removeAThread s.threadArray s.currentThread else s.threadArray := by
    unfold run
    cases cfg.useTLB <;> rfl
  have hrm : ∀ u, ((removeAThread s.threadArray u)[t]?).join =
      if t = u then none else s.thread t := fun u => by
    by_cases e : u = t
    · subst e
      simp only [removeAThread, List.getElem?_set, ite_true]
      split <;> rfl
    · simp [removeAThread, List.getElem?_set_ne e, Ne.symm e, thread]
  rw [thread, hrun]
  by_cases he : (s.thread s.currentThread).any UserThread.exited = true
  · rw [if_pos he, hrm]
    by_cases e : t = s.currentThread
    · rw [if_pos e, if_pos ⟨e, e ▸ he⟩]
    · rw [if_neg e, if_neg fun hc => e hc.1]
  · rw [if_neg he, if_neg]
    · rfl
    · rintro ⟨rfl, h⟩
      exact he h

theorem thread_of_run {cfg : Config} {s : Vm} {n t : Nat} {u : UserThread}
    (hu : (s.run cfg n).thread t = some u) : s.thread t = some u := by
  rw [thread_run] at hu
  split at hu
  · cases hu
  · exact hu

theorem runnable_iff {s : Vm} {t : Nat} :
    s.runnable t = true ↔ ∃ u, s.thread t = some u ∧ u.saved = none ∧ u.exited = false := by
  unfold runnable
  cases s.thread t <;> simp

/-- The thread does not exist, or has exited. -/
def Dead (s : Vm) (t : Nat) : Prop := ∀ u, s.thread t = some u → u.exited = true

theorem not_dead_of_runnable {s : Vm} {t : Nat} (h : s.runnable t = true) : ¬ Dead s t := by
  obtain ⟨u, hu, -, hex⟩ := runnable_iff.mp h
  intro hd
  rw [hd u hu] at hex
  cases hex

theorem runnable_of_core {s s' : Vm} (h : s'.core = s.core) (t : Nat) :
    s'.runnable t = s.runnable t := by
  have ht := thread_of_core h t
  unfold runnable
  cases h₁ : s.thread t <;> cases h₂ : s'.thread t <;> rw [h₁, h₂] at ht <;> simp at ht ⊢
  obtain ⟨hex, hsv, -⟩ := UserThread.of_core ht
  rw [hex, hsv]

theorem inUser_of_core {s s' : Vm} (h : s'.core = s.core) : s'.inUser = s.inUser := by
  rw [inUser, inUser, (of_core h).2.2.2.2, runnable_of_core h, isUser_of_core h]

/-- The loop of `SC_Exit` changes the table and the bitmap only. -/
theorem exitRPT_frame {s s' : Vm} {is : List Nat} (h : s.exitRPT is = .ok s') :
    ∃ b pt, s' = { s with mmBitmap := b, pt := pt } := by
  induction is generalizing s with
  | nil =>
    cases h
    exact ⟨_, _, rfl⟩
  | cons i is ih =>
    unfold exitRPT at h
    split at h
    · obtain ⟨b, -, h⟩ := bind_eq_ok.mp h
      obtain ⟨b', pt', rfl⟩ := ih h
      exact ⟨_, _, rfl⟩
    · exact ih h

theorem exitClean_frame {cfg : Config} {s s' : Vm} (h : s.exitClean cfg = .ok s') :
    ∃ b pt tlb, s' = { s with mmBitmap := b, pt := pt, tlb := tlb } := by
  unfold exitClean at h
  split at h
  · cases h
    exact ⟨_, _, _, rfl⟩
  · split at h
    · obtain ⟨s₁, h₁, h⟩ := bind_eq_ok.mp h
      obtain ⟨b, pt, rfl⟩ := exitRPT_frame h₁
      cases h
      exact ⟨_, _, _, rfl⟩
    · obtain ⟨b, -, h⟩ := bind_eq_ok.mp h
      cases h
      exact ⟨_, _, _, rfl⟩

/-- After `SC_Exit` the thread is marked. -/
theorem exit_thread {cfg : Config} {s s' : Vm} (h : s.exit cfg = .ok s') :
    s'.mainMemory = s.mainMemory ∧ ∀ t, s'.thread t = if t = s.currentThread then
      (s.thread t).map fun u => { u with exited := true } else s.thread t := by
  obtain ⟨s₁, h₁, h⟩ := bind_eq_ok.mp h
  obtain ⟨b, pt, tlb, rfl⟩ := exitClean_frame h₁
  cases h
  exact ⟨rfl, fun t => thread_setThread _ _ _ t⟩

theorem space_eq_ok {s : Vm} {tid : Nat} {sp : AddrSpace} :
    s.space tid = .ok sp ↔ ∃ t, s.thread tid = some t ∧ t.space = some sp := by
  unfold space
  cases h : s.thread tid with
  | none => simp
  | some t => cases h' : t.space <;> simp [h']

/-- The space of a thread, up to flags. -/
theorem space_of_core {s s' : Vm} (h : s'.core = s.core) {t : Nat} {sp' : AddrSpace}
    (hsp : s'.space t = .ok sp') : ∃ sp, s.space t = .ok sp ∧ sp'.core = sp.core := by
  obtain ⟨u', hu', hus'⟩ := space_eq_ok.mp hsp
  obtain ⟨u, hu, hcu⟩ := thread_of_core_some h hu'
  have hmap := (UserThread.of_core hcu).2.2
  rw [hus', Option.map_some] at hmap
  obtain ⟨sp, hus, hc⟩ := Option.map_eq_some_iff.mp hmap.symm
  exact ⟨sp, space_eq_ok.mpr ⟨u, hu, hus⟩, hc.symm⟩

/-- A new thread has a new space, or none. -/
theorem space_create {cfg : Config} {s s' : Vm} {program : Option Program}
    (h : s.create cfg program = .ok s') (t : Nat) (sp : AddrSpace) :
    (s.space t = .ok sp → s'.space t = .ok sp) ∧
      (s'.space t = .ok sp → s.space t = .ok sp ∨ ∃ p, sp = AddrSpace.new cfg p) := by
  obtain ⟨i, hi, -, hth⟩ := thread_create h
  refine ⟨fun hsp => ?_, fun hsp => ?_⟩
  · obtain ⟨u, hu, hus⟩ := space_eq_ok.mp hsp
    refine space_eq_ok.mpr ⟨u, ?_, hus⟩
    rw [hth, if_neg, hu]
    rintro rfl
    rw [hi] at hu
    cases hu
  · obtain ⟨u, hu, hus⟩ := space_eq_ok.mp hsp
    rw [hth] at hu
    split at hu
    · cases hu
      obtain ⟨p, -, rfl⟩ := Option.map_eq_some_iff.mp hus
      exact .inr ⟨p, rfl⟩
    · exact .inl (space_eq_ok.mpr ⟨u, hu, hus⟩)

theorem space_of_run {cfg : Config} {s : Vm} {n t : Nat} {sp : AddrSpace}
    (h : (s.run cfg n).space t = .ok sp) : s.space t = .ok sp := by
  obtain ⟨u, hu, hus⟩ := space_eq_ok.mp h
  exact space_eq_ok.mpr ⟨u, thread_of_run hu, hus⟩

theorem space_setThread (s : Vm) (t : Nat) {f : UserThread → UserThread}
    (hf : ∀ u, (f u).space = u.space) (t' : Nat) : (s.setThread t f).space t' = s.space t' := by
  have hsp : ((s.setThread t f).thread t').bind UserThread.space =
      (s.thread t').bind UserThread.space := by
    rw [thread_setThread]
    split
    · cases s.thread t' <;> simp [hf]
    · rfl
  rw [space, hsp, space]

/-- At first there is the main thread only. -/
theorem space_start (cfg : Config) (t : Nat) (sp : AddrSpace) : (start cfg).space t ≠ .ok sp := by
  intro hsp
  obtain ⟨u, hu, hus⟩ := space_eq_ok.mp hsp
  have hm : u = ⟨none, none, false⟩ := by
    simp only [thread, Vm.start, List.getElem?_set] at hu
    split at hu
    · simpa [maxThreadNum] using hu.symm
    · rw [List.getElem?_replicate] at hu
      split at hu <;> cases hu
  rw [hm] at hus
  cases hus

theorem thread_setSpace (s : Vm) (tid : Nat) (sp : AddrSpace) (t : Nat) :
    (s.setSpace tid sp).thread t =
      if t = tid then (s.thread t).map fun u => { u with space := some sp } else s.thread t :=
  thread_setThread s tid _ t

theorem space_setSpace {s : Vm} {tid : Nat} {sp : AddrSpace} (h : s.space tid = .ok sp)
    (sp' : AddrSpace) (t : Nat) :
    (s.setSpace tid sp').space t = if t = tid then .ok sp' else s.space t := by
  obtain ⟨u, hu, -⟩ := space_eq_ok.mp h
  unfold space
  rw [thread_setSpace]
  by_cases e : t = tid
  · subst e
    simp [hu]
  · simp [e]

theorem fetch_eq_ok {s : Vm} {addr : Int} {n : Nat} {bs : List Byte} :
    s.fetch addr n = .ok bs ↔ 0 ≤ addr ∧ addr + n ≤ memorySize ∧
      bs = (List.range n).map fun i => s.mainMemory (addr.toNat + i) := by
  simp [fetch, bind_eq_ok, and_assoc, eq_comm (a := bs)]

theorem store_eq_ok {s s' : Vm} {addr : Int} {src : List Byte} :
    s.store addr src = .ok s' ↔ 0 ≤ addr ∧ addr + src.length ≤ memorySize ∧
      s' = { s with mainMemory := blit s.mainMemory addr.toNat src } := by
  simp [store, bind_eq_ok, and_assoc, eq_comm (a := s')]

theorem readAt_eq_ok {f bs : List Byte} {n : Nat} {pos : Int} :
    Unix.readAt f n pos = .ok bs ↔ 0 ≤ pos ∧ bs = (f.drop pos.toNat).take n := by
  simp [Unix.readAt, bind_eq_ok, eq_comm (a := bs)]

/-- A thread touches as many pages as there are frames, and goes on. -/
def fillRun (p : Program) (rest : List Op) : List (Op × Env) :=
  let pages : List Op := (List.range numPhysPages).map fun i : Nat => .read (i * pageSize) 1
  let ops : List Op := [.create (some p), .run 1] ++ pages ++ rest
  ops.map fun op => (op, .blank)

/-- A result, by evaluation. -/
theorem exists_ok {α : Type} {x : Except Abort α} {q : α → Bool} (h : x.toOption.any q = true) :
    ∃ a, x = .ok a ∧ q a = true := by
  cases x with
  | error e => cases h
  | ok a => exact ⟨a, rfl, h⟩

/-- No frame is free. -/
def full (s : Vm) : Prop := ∀ i < numPhysPages, s.mmBitmap.bit i = true

instance (s : Vm) : Decidable s.full := inferInstanceAs (Decidable (∀ i < _, _))

theorem pageFrame_eq {cfg : Config} {s s₁ : Vm} {ppn : Int} (h : s.pageFrame cfg = .ok (s₁, ppn)) :
    ∃ b, s₁ = { s with mmBitmap := b } := by
  obtain ⟨⟨i, b⟩, -, h⟩ := bind_eq_ok.mp h
  refine ⟨b, ?_⟩
  simp only at h
  split at h
  · obtain ⟨v, -, h⟩ := bind_eq_ok.mp h
    cases h
    rfl
  · cases h
    rfl

/-- The frame of a load: the lowest free one, or the victim when there is none. -/
theorem pageFrame_cases {cfg : Config} {s s' : Vm} {p : Int} (hw : s.mmBitmap.Wf)
    (h : s.pageFrame cfg = .ok (s', p)) :
    (∃ f : Nat, p = f ∧ f < s.mmBitmap.numBits ∧ (∀ j < f, s.mmBitmap.bit j = true) ∧
      s.mmBitmap.bit f = false ∧ s' = { s with mmBitmap := s.mmBitmap.put f true }) ∨
    ((∀ j < s.mmBitmap.numBits, s.mmBitmap.bit j = true) ∧ s' = s ∧
      ∃ v : Nat, p = v ∧ s.victim cfg = .ok v) := by
  obtain ⟨⟨i, b⟩, hf, h⟩ := bind_eq_ok.mp h
  rcases Bitmap.findAndSet_cases hw with ⟨k, hk, hlow, hfree, hb⟩ | ⟨hfull, hb⟩
  · rw [hb] at hf
    cases hf
    simp only at h
    rw [if_neg (by omega)] at h
    cases h
    exact .inl ⟨k, rfl, hk, hlow, hfree, rfl⟩
  · rw [hb] at hf
    cases hf
    simp only [ite_true] at h
    obtain ⟨v, hv, h⟩ := bind_eq_ok.mp h
    obtain ⟨rfl, rfl⟩ := Prod.mk.inj (Except.ok.inj h)
    exact .inr ⟨hfull, rfl, v, rfl, hv⟩

/-- `updateLRUFlag` of the TLB. -/
theorem touchTLB_core {cfg : Config} {env : Env} {s s' : Vm} {k : Option Nat}
    (h : s.touchTLB cfg env k = .ok s') : s'.core = s.core := by
  cases k with
  | none => cases h; rfl
  | some k =>
    simp only [touchTLB] at h
    split at h
    · obtain ⟨tlb, ht, h⟩ := bind_eq_ok.mp h
      cases h
      simp [core, Table.updateLRUFlag_core ht]
    · cases h; rfl

theorem core_setSpace {s : Vm} {tid : Nat} {sp sp' : AddrSpace} (hs : s.space tid = .ok sp)
    (hc : sp'.core = sp.core) : (s.setSpace tid sp').core = s.core := by
  obtain ⟨u, hu, hsp⟩ := space_eq_ok.mp hs
  have harr : (s.setSpace tid sp').threadArray.map (Option.map UserThread.core) =
      s.threadArray.map (Option.map UserThread.core) := by
    apply List.ext_getElem?
    intro i
    simp only [setSpace, setThread, List.getElem?_map, List.getElem?_modify]
    by_cases e : tid = i
    · subst e
      obtain ⟨o, ho⟩ : ∃ o, s.threadArray[tid]? = some o := by
        cases ho : s.threadArray[tid]? with
        | none => simp [thread, ho] at hu
        | some o => exact ⟨o, rfl⟩
      have hou : o = some u := by simpa [thread, ho] using hu
      subst hou
      simp [ho, UserThread.core, hc, hsp]
    · simp [e]
  simpa [core, setSpace, setThread] using harr

/-- `updateLRUFlag` of the page table. -/
theorem touch_core {cfg : Config} {env : Env} {s s' : Vm} {vpn f : Int}
    (h : s.touch cfg env vpn f = .ok s') : s'.core = s.core := by
  unfold touch at h
  split at h <;> [skip; (cases h; rfl)]
  split at h
  · obtain ⟨pt, hp, h⟩ := bind_eq_ok.mp h
    cases h
    simp [core, Table.updateLRUFlag_core hp]
  · obtain ⟨sp, hsp, h⟩ := bind_eq_ok.mp h
    obtain ⟨pt, hp, h⟩ := bind_eq_ok.mp h
    cases h
    exact core_setSpace hsp (by simp [AddrSpace.core, Table.updateLRUFlag_core hp])

/-! ## Accesses -/

/-- The access is a page fault. -/
def faults (cfg : Config) (env : Env) (s : Vm) (addr : Int) : Bool :=
  match s.pageTableTranslation cfg env (addr.tdiv pageSize) with
  | .ok (_, .error .pageFault) => true
  | _ => false

/-- The walk of the page table for `vpn` does not change the machine. -/
def Stable (cfg : Config) (env : Env) (s : Vm) (vpn : Int) : Prop :=
  ∀ s' r, s.pageTableTranslation cfg env vpn = .ok (s', r) → s' = s

section
variable {cfg : Config} {env : Env} {s s' : Vm}

theorem lookup_stable {vpn : Int} (hst : cfg.useTLB = false → s.Stable cfg env vpn)
    {r : Except ExceptionType (Int × TranslationEntry × Option Nat)}
    (h : s.lookup cfg env vpn = .ok (s', r)) :
    s' = s ∧ (cfg.useTLB = false → ∃ q, s.pageTableTranslation cfg env vpn = .ok (s, q) ∧
      r = q.map fun p => (p.1, p.2, none)) := by
  unfold lookup at h
  split at h
  · rename_i ht
    split at h <;> cases h <;> exact ⟨rfl, fun h => absurd ht (by simp [h])⟩
  · rename_i ht
    obtain ⟨⟨s₁, q⟩, hq, h₁⟩ := bind_eq_ok.mp h
    obtain rfl := hst (by simpa using ht) _ _ hq
    cases h₁
    exact ⟨rfl, fun _ => ⟨q, hq, rfl⟩⟩

/-- An exception of the page table walk leaves the machine as it was. -/
theorem pageTableTranslation_stays {vpn : Int} {e : ExceptionType}
    (h : s.pageTableTranslation cfg env vpn = .ok (s', .error e)) : s' = s := by
  unfold pageTableTranslation at h
  split at h
  · exact (Prod.mk.inj (Except.ok.inj h)).1.symm
  · obtain ⟨sp, -, h⟩ := bind_eq_ok.mp h
    split at h <;> [(cases h; rfl); simp only at h]
    split at h <;> [cases h; skip]
    split at h
    · obtain ⟨⟨s₁, sp₁⟩, -, h⟩ := bind_eq_ok.mp h
      cases h
    · cases h
      rfl

/-- The exceptions of the walk. -/
theorem pageTableTranslation_error {vpn : Int} {e : ExceptionType}
    (h : s.pageTableTranslation cfg env vpn = .ok (s', .error e)) :
    e = .pageFault ∨ e = .addressError := by
  unfold pageTableTranslation at h
  split at h
  · obtain ⟨-, hr⟩ := Prod.mk.inj (Except.ok.inj h)
    unfold rptTranslation at hr
    split at hr <;> cases hr
    exact .inl rfl
  · obtain ⟨sp, -, h⟩ := bind_eq_ok.mp h
    split at h <;> [(cases h; exact .inr rfl); simp only at h]
    split at h <;> [cases h; skip]
    split at h
    · obtain ⟨⟨s₁, sp₁⟩, -, h⟩ := bind_eq_ok.mp h
      cases h
    · cases h
      exact .inl rfl

/-- `Translate` changes flags only, and nothing when it raises an exception. -/
theorem translate_cases {addr : Int}
    (hst : cfg.useTLB = false → s.Stable cfg env (addr.tdiv pageSize)) {size : Nat} {w : Bool}
    {r : Except ExceptionType Int} (h : s.translate cfg env addr size w = .ok (s', r)) :
    (∃ e, r = .error e ∧ s' = s ∧
      (s.lookup cfg env (addr.tdiv pageSize) = .ok (s, .error e) ∨
        e = .addressError ∨ e = .readOnly ∨ e = .busError)) ∨
    (∃ pa f e k, r = .ok pa ∧ s'.core = s.core ∧
      s.lookup cfg env (addr.tdiv pageSize) = .ok (s, .ok (f, e, k)) ∧
      pa = f * pageSize + addr.tmod pageSize ∧
      ¬ ((size = 4 ∧ addr % 4 ≠ 0) ∨ (size = 2 ∧ addr % 2 ≠ 0))) := by
  unfold translate at h
  split at h
  · cases h
    exact .inl ⟨_, rfl, rfl, .inr (.inl rfl)⟩
  · rename_i hal
    obtain ⟨⟨s₁, r₁⟩, h₁, h⟩ := bind_eq_ok.mp h
    obtain ⟨rfl, -⟩ := lookup_stable hst h₁
    cases r₁ with
    | error e =>
      cases h
      exact .inl ⟨_, rfl, rfl, .inl h₁⟩
    | ok p =>
      obtain ⟨f, e, k⟩ := p
      simp only at h
      split at h
      · cases h
        exact .inl ⟨_, rfl, rfl, .inr (.inr (.inl rfl))⟩
      · split at h
        · cases h
          exact .inl ⟨_, rfl, rfl, .inr (.inr (.inr rfl))⟩
        · obtain ⟨s₂, h₂, h⟩ := bind_eq_ok.mp h
          obtain ⟨_, -, h⟩ := bind_eq_ok.mp h
          obtain ⟨s₃, h₃, h⟩ := bind_eq_ok.mp h
          cases h
          refine .inr ⟨_, f, e, k, rfl, ?_, h₁, rfl, hal⟩
          rw [touchTLB_core h₃, touch_core h₂]

/-- What an exception of an access leads to: a page fault, or a new entry in
the TLB. -/
theorem exception_cases {addr : Int} (hst : s.Stable cfg env (addr.tdiv pageSize)) {size : Nat}
    {w : Bool} {s₁ : Vm} {e : ExceptionType}
    (ht : s.translate cfg env addr size w = .ok (s₁, .error e))
    (hx : s₁.exceptionHandler cfg env e addr = .ok s') :
    (s.pageTableTranslation cfg env (addr.tdiv pageSize) = .ok (s, .error .pageFault) ∧
      s.pageFaultHandler cfg env addr = .ok s') ∨
    (cfg.useTLB = true ∧ ∃ f en tlb,
      s.pageTableTranslation cfg env (addr.tdiv pageSize) = .ok (s, .ok (f, en)) ∧
      s.tlb.updateTLB cfg env.stray en = .ok tlb ∧ s' = { s with tlb := tlb }) := by
  rcases translate_cases (fun _ => hst) ht with ⟨e', he, rfl, hl⟩ | ⟨pa, f, e', k, he, -⟩ <;>
    [skip; cases he]
  cases he
  rcases hl with hl | rfl | rfl | rfl <;> [skip; cases hx; cases hx; cases hx]
  unfold lookup at hl
  split at hl
  · rename_i hT
    split at hl <;> [skip; cases hl]
    cases hl
    obtain ⟨⟨s₂, r⟩, hr, h₂⟩ := bind_eq_ok.mp hx
    obtain rfl := hst _ _ hr
    cases r with
    | error e' =>
      rcases pageTableTranslation_error hr with rfl | rfl
      · exact .inl ⟨hr, h₂⟩
      · cases h₂
    | ok p =>
      obtain ⟨tlb, h₃, h₂⟩ := bind_eq_ok.mp h₂
      cases h₂
      exact .inr ⟨hT, p.1, p.2, tlb, hr, h₃, rfl⟩
  · obtain ⟨⟨s₂, r⟩, hr, h₂⟩ := bind_eq_ok.mp hl
    obtain rfl := hst _ _ hr
    cases r with
    | ok p => cases h₂
    | error e' =>
      cases h₂
      rcases pageTableTranslation_error hr with rfl | rfl
      · exact .inl ⟨hr, hx⟩
      · cases hx

end

end Vm

end Nachos
