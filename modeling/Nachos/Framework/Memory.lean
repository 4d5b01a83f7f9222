import Mathlib.Algebra.Group.Nat.Defs
import Mathlib.Logic.Function.Basic

/-!
# Memory of bytes and little-endian words

A memory is a byte at every 32-bit address, and addresses wrap around. `Within b n`
is the range of `n` bytes from `b` on. What a word access reads depends on its four
bytes only (`read_congr`), it finds what was stored there (`read_write_self`), and a
store leaves the words alone that are apart from it (`read_write_apart`).
-/

namespace Framework

/-- A byte at every address. -/
abbrev Memory := BitVec 32 → BitVec 8

namespace Memory

/-- The address is one of the `n` from `base` on. -/
def Within (base : BitVec 32) (n : Nat) (a : BitVec 32) : Prop := (a - base).toNat < n

instance (base : BitVec 32) (n : Nat) (a : BitVec 32) : Decidable (Within base n a) :=
  inferInstanceAs (Decidable (_ < _))

/-- The word at an address. -/
def read (m : Memory) (a : BitVec 32) : BitVec 32 := m (a + 3) ++ m (a + 2) ++ m (a + 1) ++ m a

/-- The memory with a word stored. -/
def write (m : Memory) (a v : BitVec 32) : Memory := fun x =>
  if Within a 4 x then v.extractLsb' (8 * (x - a).toNat) 8 else m x

variable {m m' : Memory} {a b v : BitVec 32} {i j n : Nat}

/-- An address is in a range by its offset. -/
theorem within_iff (hn : n ≤ 2 ^ 32) : Within b n a ↔ ∃ k < n, a = b + BitVec.ofNat 32 k := by
  constructor
  · intro h
    refine ⟨(a - b).toNat, h, ?_⟩
    rw [BitVec.ofNat_toNat, BitVec.setWidth_eq, BitVec.add_comm, BitVec.sub_add_cancel]
  · rintro ⟨k, hk, rfl⟩
    show (b + BitVec.ofNat 32 k - b).toNat < n
    rw [BitVec.add_comm, BitVec.add_sub_cancel, BitVec.toNat_ofNat, Nat.mod_eq_of_lt (by omega)]
    exact hk

theorem within_add (hi : i < n) (hn : n ≤ 2 ^ 32) : Within b n (b + BitVec.ofNat 32 i) :=
  (within_iff hn).mpr ⟨i, hi, rfl⟩

/-- A range in a range. -/
theorem Within.add (hi : i + j ≤ n) (hn : n ≤ 2 ^ 32) (h : Within (b + BitVec.ofNat 32 i) j a) :
    Within b n a := by
  obtain ⟨k, hk, rfl⟩ := (within_iff (by omega)).mp h
  refine (within_iff hn).mpr ⟨i + k, by omega, ?_⟩
  rw [BitVec.add_assoc, ← BitVec.ofNat_add]

/-- The bytes of a word. -/
theorem read_congr (h : ∀ x, Within a 4 x → m' x = m x) : m'.read a = m.read a := by
  have hat : ∀ k < 4, m' (a + BitVec.ofNat 32 k) = m (a + BitVec.ofNat 32 k) := fun k hk =>
    h _ (within_add hk (by decide))
  have h₀ : m' a = m a := by simpa using hat 0 (by decide)
  have h₁ : m' (a + 1) = m (a + 1) := hat 1 (by decide)
  have h₂ : m' (a + 2) = m (a + 2) := hat 2 (by decide)
  have h₃ : m' (a + 3) = m (a + 3) := hat 3 (by decide)
  rw [read, read, h₀, h₁, h₂, h₃]

theorem write_at (hk : i < 4) :
    m.write a v (a + BitVec.ofNat 32 i) = v.extractLsb' (8 * i) 8 := by
  have hs : (a + BitVec.ofNat 32 i - a).toNat = i := by
    rw [BitVec.add_comm, BitVec.add_sub_cancel, BitVec.toNat_ofNat, Nat.mod_eq_of_lt (by omega)]
  rw [write, if_pos (within_add hk (by decide)), hs]

theorem write_of_not_within {x : BitVec 32} (h : ¬ Within a 4 x) : m.write a v x = m x := if_neg h

theorem write_congr {x : BitVec 32} (h : m' x = m x) : m'.write a v x = m.write a v x := by
  unfold write
  rw [h]

/-- A word that was stored is read. -/
theorem read_write_self (m : Memory) (a v : BitVec 32) : (m.write a v).read a = v := by
  have h₀ : m.write a v a = v.extractLsb' 0 8 := by
    simpa using write_at (m := m) (a := a) (v := v) (i := 0) (by decide)
  have h₁ : m.write a v (a + 1) = v.extractLsb' 8 8 := write_at (by decide)
  have h₂ : m.write a v (a + 2) = v.extractLsb' 16 8 := write_at (by decide)
  have h₃ : m.write a v (a + 3) = v.extractLsb' 24 8 := write_at (by decide)
  rw [read, h₀, h₁, h₂, h₃]
  ext k hk
  simp only [BitVec.getElem_append, BitVec.getElem_extractLsb']
  repeat' split
  all_goals
    rw [← BitVec.getLsbD_eq_getElem hk]
    congr 1
    omega

/-- The stores that are apart from a word. -/
theorem read_write_apart (h : ∀ x, Within b 4 x → ¬ Within a 4 x) :
    (m.write a v).read b = m.read b :=
  read_congr fun x hx => write_of_not_within (h x hx)

/-- Two fields of one object are apart. -/
theorem apart_offset (hij : i + 4 ≤ j ∨ j + 4 ≤ i) (hi : i + 4 ≤ 2 ^ 32) (hj : j + 4 ≤ 2 ^ 32)
    {x : BitVec 32} (h : Within (b + BitVec.ofNat 32 j) 4 x) :
    ¬ Within (b + BitVec.ofNat 32 i) 4 x := by
  intro h'
  obtain ⟨k, hk, rfl⟩ := (within_iff (by decide)).mp h
  obtain ⟨l, hl, he⟩ := (within_iff (by decide)).mp h'
  rw [BitVec.add_assoc, BitVec.add_assoc, ← BitVec.ofNat_add, ← BitVec.ofNat_add] at he
  have he := congrArg BitVec.toNat ((BitVec.add_right_inj b).mp he)
  rw [BitVec.toNat_ofNat, BitVec.toNat_ofNat, Nat.mod_eq_of_lt (by omega),
    Nat.mod_eq_of_lt (by omega)] at he
  omega

theorem read_write_offset (hij : i + 4 ≤ j ∨ j + 4 ≤ i) (hi : i + 4 ≤ 2 ^ 32) (hj : j + 4 ≤ 2 ^ 32) :
    (m.write (b + BitVec.ofNat 32 i) v).read (b + BitVec.ofNat 32 j) =
      m.read (b + BitVec.ofNat 32 j) :=
  read_write_apart fun _ hx => apart_offset hij hi hj hx

attribute [irreducible] read write

/-! ## Objects of words -/

/-- Two words at these offsets do not overlap. -/
def Apart (i j : Nat) : Prop := i + 4 ≤ j ∨ j + 4 ≤ i

instance (i j : Nat) : Decidable (Apart i j) := inferInstanceAs (Decidable (_ ∨ _))

/-- Words stored at offsets of an object. -/
def fill (m : Memory) (base : BitVec 32) (fields : List (Nat × BitVec 32)) : Memory :=
  fields.foldl (fun m p => m.write (base + BitVec.ofNat 32 p.1) p.2) m

variable {fields : List (Nat × BitVec 32)}

/-- Nothing else has changed. -/
theorem fill_of_not_within (hn : n ≤ 2 ^ 32) (hf : ∀ i ∈ fields.map Prod.fst, i + 4 ≤ n)
    {x : BitVec 32} (hx : ¬ Within b n x) : m.fill b fields x = m x := by
  induction fields generalizing m with
  | nil => rfl
  | cons p fields ih =>
    show fill (m.write _ _) b fields x = _
    rw [ih fun i hi => hf i (List.mem_cons_of_mem _ hi)]
    exact write_of_not_within fun h => hx (h.add (hf p.1 List.mem_cons_self) hn)

/-- A field that is not stored is as before. -/
theorem read_fill_apart (hn : n ≤ 2 ^ 32) (hf : ∀ i ∈ fields.map Prod.fst, i + 4 ≤ n) (hj : j + 4 ≤ n)
    (ha : ∀ i ∈ fields.map Prod.fst, Apart i j) :
    (m.fill b fields).read (b + BitVec.ofNat 32 j) = m.read (b + BitVec.ofNat 32 j) := by
  induction fields generalizing m with
  | nil => rfl
  | cons p fields ih =>
    show Memory.read (fill (m.write _ _) b fields) _ = _
    rw [ih (fun i hi => hf i (List.mem_cons_of_mem _ hi)) fun i hi => ha i (List.mem_cons_of_mem _ hi)]
    have hp := hf p.1 List.mem_cons_self
    exact read_write_offset (ha p.1 List.mem_cons_self) (by omega) (by omega)

/-- A field that was stored is read. -/
theorem read_fill (hn : n ≤ 2 ^ 32) (hf : ∀ i ∈ fields.map Prod.fst, i + 4 ≤ n)
    (ha : (fields.map Prod.fst).Pairwise Apart) (hv : (j, v) ∈ fields) :
    (m.fill b fields).read (b + BitVec.ofNat 32 j) = v := by
  induction fields generalizing m with
  | nil => cases hv
  | cons p fields ih =>
    have hf' : ∀ i ∈ fields.map Prod.fst, i + 4 ≤ n := fun i hi => hf i (List.mem_cons_of_mem _ hi)
    obtain ⟨hp, ha'⟩ := List.pairwise_cons.mp ha
    rcases List.mem_cons.mp hv with rfl | hv
    · show Memory.read (fill (m.write _ _) b fields) _ = _
      rw [read_fill_apart hn hf' (hf j List.mem_cons_self) fun i hi => (hp i hi).symm]
      exact read_write_self ..
    · exact ih hf' ha' hv

end Memory

end Framework
