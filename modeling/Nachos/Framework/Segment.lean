import Mathlib.Data.List.Nodup
import Mathlib.Data.List.Perm.Subperm
import Mathlib.Logic.Function.Iterate

/-!
# Segments of linked lists

A heap gives each address in use a pointer to the next cell and an item. `Seg h p cs q`
is that the cells `cs` follow each other from the pointer `p` on, up to the pointer `q`.
Segments are put together and cut apart (`seg_append`), depend on their cells only
(`Seg.congr`), and end somewhere else after a write to one of their cells
(`Seg.relink`). One that ends at the null pointer does not meet itself (`Seg.nodup`),
so it is no longer than the heap (`Seg.length_le`).
-/

namespace Framework.Segment

variable {A X : Type*} {h h' : A → Option (Option A × X)} {p q q' : Option A} {a : A} {x : X}
  {cs cs' c₁ c₂ : List (A × X)}

/-- The cells from `p` up to `q`. -/
def Seg (h : A → Option (Option A × X)) : Option A → List (A × X) → Option A → Prop
  | p, [], q => p = q
  | p, (a, x) :: cs, q => p = some a ∧ ∃ r, h a = some (r, x) ∧ Seg h r cs q

theorem seg_append : Seg h p (c₁ ++ c₂) q ↔ ∃ r, Seg h p c₁ r ∧ Seg h r c₂ q := by
  induction c₁ generalizing p with
  | nil =>
    constructor
    · exact fun hs => ⟨p, rfl, hs⟩
    · rintro ⟨r, rfl, hs⟩
      exact hs
  | cons c c₁ ih =>
    obtain ⟨a, x⟩ := c
    constructor
    · rintro ⟨rfl, r, ha, hs⟩
      obtain ⟨r', h₁, h₂⟩ := ih.mp hs
      exact ⟨r', ⟨rfl, r, ha, h₁⟩, h₂⟩
    · rintro ⟨r', ⟨rfl, r, ha, h₁⟩, h₂⟩
      exact ⟨rfl, r, ha, ih.mpr ⟨r', h₁, h₂⟩⟩

/-- One cell. -/
theorem seg_singleton : Seg h p [(a, x)] q ↔ p = some a ∧ h a = some (q, x) := by
  constructor
  · rintro ⟨rfl, r, ha, rfl⟩
    exact ⟨rfl, ha⟩
  · rintro ⟨rfl, ha⟩
    exact ⟨rfl, q, ha, rfl⟩

theorem seg_snoc : Seg h p (cs ++ [(a, x)]) q ↔ Seg h p cs (some a) ∧ h a = some (q, x) := by
  rw [seg_append]
  constructor
  · rintro ⟨r, hs, hc⟩
    obtain ⟨rfl, ha⟩ := seg_singleton.mp hc
    exact ⟨hs, ha⟩
  · rintro ⟨hs, ha⟩
    exact ⟨some a, hs, seg_singleton.mpr ⟨rfl, ha⟩⟩

/-- What the heap has at other addresses does not matter. -/
theorem Seg.congr (hs : Seg h p cs q) (heq : ∀ c ∈ cs, h' c.1 = h c.1) : Seg h' p cs q := by
  induction cs generalizing p with
  | nil => exact hs
  | cons c cs ih =>
    obtain ⟨a, x⟩ := c
    obtain ⟨rfl, r, ha, hs⟩ := hs
    exact ⟨rfl, r, (heq _ List.mem_cons_self).trans ha,
      ih hs fun c hc => heq c (List.mem_cons_of_mem _ hc)⟩

/-- A cell points somewhere else. -/
theorem Seg.relink (hs : Seg h p (cs ++ (a, x) :: cs') q) (heq : ∀ c ∈ cs, h' c.1 = h c.1)
    (ha : h' a = some (q', x)) : Seg h' p (cs ++ [(a, x)]) q' := by
  obtain ⟨_, hbefore, rfl, -⟩ := seg_append.mp hs
  exact seg_snoc.mpr ⟨hbefore.congr heq, ha⟩

theorem Seg.mem (hs : Seg h p cs q) {c : A × X} (hc : c ∈ cs) : ∃ r, h c.1 = some (r, c.2) := by
  induction cs generalizing p with
  | nil => cases hc
  | cons d cs ih =>
    obtain ⟨a, x⟩ := d
    obtain ⟨rfl, r, ha, hs⟩ := hs
    rcases List.mem_cons.mp hc with rfl | hc
    · exact ⟨r, ha⟩
    · exact ih hs hc

/-- A segment starts at its first cell. -/
theorem Seg.eq_none_iff (hs : Seg h p cs none) : p = none ↔ cs = [] := by
  cases cs with
  | nil => exact iff_of_true hs rfl
  | cons c cs =>
    obtain ⟨rfl, -⟩ := hs
    exact iff_of_false (by simp) (by simp)

/-- The heap determines the cells up to the null pointer. -/
theorem Seg.unique (hs : Seg h p cs none) (hs' : Seg h p cs' none) : cs = cs' := by
  induction cs generalizing p cs' with
  | nil =>
    obtain rfl : p = none := hs
    exact (hs'.eq_none_iff.mp rfl).symm
  | cons c cs ih =>
    obtain ⟨a, x⟩ := c
    obtain ⟨rfl, r, ha, hs⟩ := hs
    cases cs' with
    | nil => cases hs'
    | cons c' cs' =>
      obtain ⟨a', x'⟩ := c'
      obtain ⟨he, r', ha', hs'⟩ := hs'
      cases he
      rw [ha] at ha'
      cases ha'
      rw [ih hs hs']

/-- Such a segment does not come back to one of its cells. -/
theorem Seg.nodup (hs : Seg h p cs none) : (cs.map Prod.fst).Nodup := by
  induction cs generalizing p with
  | nil => exact .nil
  | cons c cs ih =>
    obtain ⟨a, x⟩ := c
    obtain ⟨-, r, ha, htail⟩ := hs
    refine List.nodup_cons.mpr ⟨fun hmem => ?_, ih htail⟩
    obtain ⟨⟨b, y⟩, hc, rfl⟩ := List.mem_map.mp hmem
    obtain ⟨c₁, c₂, rfl⟩ := List.append_of_mem hc
    obtain ⟨r', -, hback⟩ := seg_append.mp htail
    obtain ⟨rfl, -⟩ := id hback
    -- From the same address on there would be a longer segment and a shorter one.
    have hself : Seg h (some b) ((b, x) :: (c₁ ++ (b, y) :: c₂)) none := ⟨rfl, r, ha, htail⟩
    have hlen := congrArg List.length (hself.unique hback)
    simp only [List.length_cons, List.length_append] at hlen
    omega

/-- It has no more cells than there are addresses in use. -/
theorem Seg.length_le (hs : Seg h p cs none) {keys : List A} (hk : ∀ a r, h a = some r → a ∈ keys) :
    cs.length ≤ keys.length := by
  have hsub : cs.map Prod.fst ⊆ keys := fun a ha => by
    obtain ⟨c, hc, rfl⟩ := List.mem_map.mp ha
    obtain ⟨r, hr⟩ := hs.mem hc
    exact hk _ _ hr
  have hle := (List.subperm_of_subset hs.nodup hsub).length_le
  rwa [List.length_map] at hle

/-- The pointer behind a pointer. -/
def follow (h : A → Option (Option A × X)) (p : Option A) : Option A := (p.bind h).bind Prod.fst

/-- As many steps as there are cells lead to the end of a segment. -/
theorem Seg.iterate (hs : Seg h p cs q) : (follow h)^[cs.length] p = q := by
  induction cs generalizing p with
  | nil => exact hs
  | cons c cs ih =>
    obtain ⟨a, x⟩ := c
    obtain ⟨rfl, r, ha, hs⟩ := hs
    have hstep : follow h (some a) = r := by
      rw [follow, Option.bind_some, ha, Option.bind_some]
    rw [List.length_cons, Function.iterate_succ_apply, hstep]
    exact ih hs

end Framework.Segment
