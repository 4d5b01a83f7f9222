import Mathlib.Data.List.GetD
import Mathlib.Data.List.Nodup
import Mathlib.Tactic.Common

/-!
# Files as lists of blocks

A store has blocks of `size` cells. A file of `n` cells lies in a list of
blocks, and `cell` is where each of its cells is. A file that is written
through a buffer of whole blocks changes in the buffer's range only
(`cell_write`), and no block of another file does (`write_of_not_mem`).
-/

namespace Framework.Blocks

variable {β : Type*} {size : Nat} {d : Nat → Nat → β} {bs : List Nat} {buf : List β}

/-- The cell at `p` of the file in the blocks `bs`. -/
def cell (size : Nat) (d : Nat → Nat → β) (bs : List Nat) (p : Nat) : β :=
  d (bs.getD (p / size) 0) (p % size)

/-- The first `n` cells of the file. -/
def contents (size : Nat) (d : Nat → Nat → β) (bs : List Nat) (n : Nat) : List β :=
  (List.range n).map (cell size d bs)

/-- The cells of the blocks, one block after the other. -/
def read (size : Nat) (d : Nat → Nat → β) (bs : List Nat) : List β :=
  bs.flatMap fun b => (List.range size).map (d b)

/-- The store after the buffer is written to the blocks. -/
def write (size : Nat) (d : Nat → Nat → β) : List Nat → List β → Nat → Nat → β
  | [], _ => d
  | b :: bs, buf => write size (fun i o => if i = b then (buf.take size).getD o (d i o) else d i o) bs
      (buf.drop size)

/-- `f` with the cells `w` from `a` on. -/
def overwrite (f : List β) (a : Nat) (w : List β) : List β :=
  f.take a ++ w ++ f.drop (a + w.length)

@[simp] theorem length_contents (n : Nat) : (contents size d bs n).length = n := by
  simp [contents]

theorem getElem?_contents {n p : Nat} (h : p < n) :
    (contents size d bs n)[p]? = some (cell size d bs p) := by
  simp [contents, h]

/-- Other blocks do not matter. -/
theorem contents_congr {d' : Nat → Nat → β} {n : Nat} (hn : n ≤ bs.length * size)
    (h : ∀ b ∈ bs, d' b = d b) : contents size d' bs n = contents size d bs n := by
  refine List.map_congr_left fun p hp => ?_
  have hlt : p / size < bs.length := by
    rw [Nat.div_lt_iff_lt_mul (Nat.pos_of_ne_zero ?_)]
    · have := List.mem_range.mp hp
      omega
    · rintro rfl
      have := List.mem_range.mp hp
      omega
  have hmem : bs.getD (p / size) 0 ∈ bs := by
    rw [List.getD_eq_getElem _ _ hlt]
    exact List.getElem_mem hlt
  rw [cell, cell, h _ hmem]

@[simp] theorem length_read : (read size d bs).length = bs.length * size := by
  induction bs with
  | nil => simp [read]
  | cons b bs ih =>
    simp only [read, List.flatMap_cons, List.length_append, List.length_map, List.length_range,
      List.length_cons] at ih ⊢
    rw [ih, Nat.succ_mul, Nat.add_comm]

/-- The buffer after a read of some blocks of a file. -/
theorem getElem?_read {q : Nat} (hq : q < bs.length * size) :
    (read size d bs)[q]? = some (cell size d bs q) := by
  induction bs generalizing q with
  | nil => simp at hq
  | cons b bs ih =>
    simp only [read, List.flatMap_cons, cell]
    by_cases h : q < size
    · rw [List.getElem?_append_left (by simpa using h)]
      simp [Nat.div_eq_of_lt h, Nat.mod_eq_of_lt h, h]
    · have hle : size ≤ q := Nat.le_of_not_lt h
      have hpos : 0 < size := by
        rcases Nat.eq_zero_or_pos size with h0 | h0
        · simp [h0] at hq
        · exact h0
      rw [List.length_cons, Nat.succ_mul] at hq
      rw [List.getElem?_append_right (by simpa using hle)]
      have := ih (q := q - size) (by omega)
      simp only [read, cell] at this
      rw [List.length_map, List.length_range, this, Nat.div_eq_sub_div hpos hle, List.getD_cons_succ,
        Nat.mod_eq_sub_mod hle]

/-- Some blocks of a file. -/
theorem cell_take_drop {first k q : Nat} (hpos : 0 < size) (hq : q < k * size) :
    cell size d ((bs.drop first).take k) q = cell size d bs (first * size + q) := by
  have hlt : q / size < k := (Nat.div_lt_iff_lt_mul hpos).mpr hq
  rw [cell, cell, Nat.mul_add_mod', Nat.add_comm, Nat.add_mul_div_right _ _ hpos,
    Nat.add_comm (q / size)]
  simp only [List.getD_eq_getElem?_getD, List.getElem?_take, if_pos hlt, List.getElem?_drop]

/-- A part of a file, out of a buffer with the blocks around it. -/
theorem slice_read {first k a m n : Nat} (hpos : 0 < size) (hk : first + k ≤ bs.length)
    (ha : a + m ≤ k * size) (hn : first * size + a + m ≤ n) :
    ((read size d ((bs.drop first).take k)).drop a).take m =
      ((contents size d bs n).drop (first * size + a)).take m := by
  have hlen : ((bs.drop first).take k).length = k := by
    rw [List.length_take, List.length_drop]
    omega
  apply List.ext_getElem?
  intro q
  rw [List.getElem?_take, List.getElem?_take]
  by_cases hq : q < m
  · rw [if_pos hq, if_pos hq, List.getElem?_drop, List.getElem?_drop,
      getElem?_read (by rw [hlen]; omega), cell_take_drop hpos (by omega),
      getElem?_contents (by omega), Nat.add_assoc]
  · rw [if_neg hq, if_neg hq]

theorem length_overwrite {f w : List β} {a : Nat} (h : a + w.length ≤ f.length) :
    (overwrite f a w).length = f.length := by
  simp only [overwrite, List.length_append, List.length_take, List.length_drop]
  omega

theorem getElem?_overwrite {f w : List β} {a : Nat} (h : a + w.length ≤ f.length) (q : Nat) :
    (overwrite f a w)[q]? = if a ≤ q ∧ q < a + w.length then w[q - a]? else f[q]? := by
  have hta : (f.take a).length = a := by
    rw [List.length_take]
    omega
  unfold overwrite
  by_cases h₁ : q < a
  · rw [List.append_assoc, List.getElem?_append_left (by rwa [hta]), List.getElem?_take, if_pos h₁,
      if_neg (by omega)]
  · by_cases h₂ : q < a + w.length
    · rw [List.append_assoc, List.getElem?_append_right (by omega), hta,
        List.getElem?_append_left (by omega), if_pos (by omega)]
    · rw [List.getElem?_append_right (by simp only [List.length_append, hta]; omega), if_neg (by omega),
        List.getElem?_drop, List.length_append, hta]
      congr 1
      omega

theorem overwrite_nil (f : List β) (a : Nat) : overwrite f a [] = f := by
  simp [overwrite]

/-- One part after the other. -/
theorem overwrite_append {f u v : List β} {a : Nat} (h : a + u.length + v.length ≤ f.length) :
    overwrite (overwrite f a u) (a + u.length) v = overwrite f a (u ++ v) := by
  have hu : a + u.length ≤ f.length := by omega
  apply List.ext_getElem?
  intro q
  rw [getElem?_overwrite (by rw [length_overwrite hu]; omega), getElem?_overwrite hu,
    getElem?_overwrite (by rw [List.length_append]; omega), List.length_append]
  by_cases h₁ : a + u.length ≤ q ∧ q < a + u.length + v.length
  · rw [if_pos h₁, if_pos (by omega), List.getElem?_append_right (by omega)]
    congr 1
    omega
  · rw [if_neg h₁]
    by_cases h₂ : a ≤ q ∧ q < a + u.length
    · rw [if_pos h₂, if_pos (by omega), List.getElem?_append_left (by omega)]
    · rw [if_neg h₂, if_neg (by omega)]

theorem overwrite_all {f w : List β} (h : w.length = f.length) : overwrite f 0 w = w := by
  simp [overwrite, h]

theorem write_of_not_mem {b : Nat} (h : b ∉ bs) : write size d bs buf b = d b := by
  induction bs generalizing d buf with
  | nil => rfl
  | cons c bs ih =>
    rw [write, ih fun hc => h (List.mem_cons_of_mem c hc)]
    funext o
    rw [if_neg fun (hc : b = c) => h (hc ▸ List.mem_cons_self)]

/-- What a block has then depends on what it had, and on the buffer. -/
theorem write_congr {d' : Nat → Nat → β} {b : Nat} (h : d' b = d b) :
    write size d' bs buf b = write size d bs buf b := by
  induction bs generalizing d d' buf with
  | nil => exact h
  | cons c bs ih =>
    rw [write, write]
    refine ih ?_
    funext o
    rw [h]

/-- The `j`th block has the `j`th part of the buffer. -/
theorem write_getD (d : Nat → Nat → β) (hnd : bs.Nodup) {j o : Nat} (hj : j < bs.length)
    (ho : o < size) (hbuf : buf.length = bs.length * size) :
    some (write size d bs buf (bs.getD j 0) o) = buf[j * size + o]? := by
  induction bs generalizing d buf j with
  | nil => cases hj
  | cons b bs ih =>
    obtain ⟨hb, hnd⟩ := List.nodup_cons.mp hnd
    rw [List.length_cons, Nat.succ_mul] at hbuf
    cases j with
    | zero =>
      have hlt : o < (buf.take size).length := by
        rw [List.length_take]
        omega
      rw [List.getD_cons_zero, write, write_of_not_mem hb, if_pos rfl, List.getD_eq_getElem _ _ hlt,
        ← List.getElem?_eq_getElem hlt, List.getElem?_take, if_pos ho, Nat.zero_mul, Nat.zero_add]
    | succ j =>
      rw [List.length_cons] at hj
      rw [List.getD_cons_succ, write, ih _ hnd (by omega) (by rw [List.length_drop]; omega),
        List.getElem?_drop]
      congr 1
      rw [Nat.succ_mul]
      omega

/-- The file after its blocks from `first` on are written. -/
theorem cell_write (hnd : bs.Nodup) {first k p : Nat} (hpos : 0 < size) (hk : first + k ≤ bs.length)
    (hbuf : buf.length = k * size) (hp : p < bs.length * size) :
    some (cell size (write size d ((bs.drop first).take k) buf) bs p) =
      if first * size ≤ p ∧ p < (first + k) * size then buf[p - first * size]?
      else some (cell size d bs p) := by
  have hlt : p / size < bs.length := (Nat.div_lt_iff_lt_mul hpos).mpr hp
  have hlen : ((bs.drop first).take k).length = k := by
    rw [List.length_take, List.length_drop]
    omega
  have hget : ∀ j < k, ((bs.drop first).take k).getD j 0 = bs.getD (first + j) 0 := by
    intro j hj
    simp only [List.getD_eq_getElem?_getD, List.getElem?_take, if_pos hj, List.getElem?_drop]
  have hsplit := Nat.div_add_mod p size
  have hmod := Nat.mod_lt p hpos
  rw [Nat.mul_comm] at hsplit
  split
  · rename_i h
    have h₁ : first ≤ p / size := (Nat.le_div_iff_mul_le hpos).mpr h.1
    have h₂ : p / size < first + k := (Nat.div_lt_iff_lt_mul hpos).mpr h.2
    have hnd' : ((bs.drop first).take k).Nodup :=
      (hnd.sublist (List.drop_sublist _ _)).sublist (List.take_sublist _ _)
    have := write_getD d hnd' (j := p / size - first) (o := p % size)
      (by omega) hmod (show buf.length = _ by rw [hlen, hbuf])
    rw [hget _ (by omega), Nat.add_sub_cancel' h₁] at this
    rw [cell, this]
    congr 1
    rw [Nat.sub_mul]
    have : first * size ≤ p / size * size := Nat.mul_le_mul_right size h₁
    omega
  · rename_i h
    have hout : p / size < first ∨ first + k ≤ p / size := by
      by_contra hc
      refine h ⟨(Nat.le_div_iff_mul_le hpos).mp (by omega), (Nat.div_lt_iff_lt_mul hpos).mp (by omega)⟩
    have hnot : bs.getD (p / size) 0 ∉ (bs.drop first).take k := by
      intro hm
      obtain ⟨j, hj, he⟩ := List.mem_iff_getElem.mp hm
      rw [hlen] at hj
      have h₁ := hget j hj
      rw [List.getD_eq_getElem _ _ (by omega), he, List.getD_eq_getElem _ _ hlt,
        List.getD_eq_getElem _ _ (by omega)] at h₁
      have := (List.Nodup.getElem_inj_iff hnd).mp h₁
      omega
    rw [cell, write_of_not_mem hnot, cell]

/-- The whole file: it is `f'` if the buffer is what `f'` has in its range. -/
theorem contents_write (hnd : bs.Nodup) {first k n : Nat} {f' : List β} (hpos : 0 < size)
    (hk : first + k ≤ bs.length) (hbuf : buf.length = k * size) (hn : n ≤ bs.length * size)
    (hlen : f'.length = n)
    (hf' : ∀ p < n, f'[p]? = if first * size ≤ p ∧ p < (first + k) * size then
      buf[p - first * size]? else (contents size d bs n)[p]?) :
    contents size (write size d ((bs.drop first).take k) buf) bs n = f' := by
  apply List.ext_getElem?
  intro p
  by_cases hp : p < n
  · rw [getElem?_contents hp, cell_write hnd hpos hk hbuf (by omega), hf' p hp, getElem?_contents hp]
  · rw [List.getElem?_eq_none (by rw [length_contents]; omega),
      List.getElem?_eq_none (by omega)]

end Framework.Blocks
