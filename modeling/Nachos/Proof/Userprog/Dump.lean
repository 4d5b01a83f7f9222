import Mathlib.Data.Nat.Digits.Lemmas
import Nachos.Proof.Lib.Sysdep
import Nachos.Proof.Userprog.Core

/-!
# The file of a suspended thread

`SaveAThread` gives every number four bytes (`Field`), and writes one record for
every page (`Records`). A number whose text and final 0 fit there (`Short`) is
read back, whatever `LoadAThread` finds in its buffer (`Encoded`). Of another
one the end is lost: with digits in the buffer it is not read back
(`readNumber_long`).
-/

namespace Nachos.Vm

/-- The text of the number and its 0 fit in `sizeof(int)` bytes. -/
def Short (n : Int) : Prop := (decimal n).length < sizeofInt

instance (n : Int) : Decidable (Short n) := inferInstanceAs (Decidable (_ < _))

theorem length_decimal (n : Nat) :
    (decimal n).length = if n = 0 then 1 else (Nat.digits 10 n).length := by
  unfold decimal
  rw [if_neg (by omega)]
  by_cases e : n = 0
  · simp [e]
  · simp [e]

theorem natAbs_lt_of_short {n : Int} (h : Short n) : n.natAbs < 10 ^ 3 := by
  have hd : (Nat.digits 10 n.natAbs).length ≤ 3 := by
    by_cases e : n = 0
    · simp [e]
    · have : (Nat.digits 10 n.natAbs).length ≤ (decimal n).length := by
        simp [decimal, e]
      exact Nat.le_of_lt_succ (Nat.lt_of_le_of_lt this h)
  exact Nat.lt_of_lt_of_le (Nat.lt_base_pow_length_digits (by decide))
    (Nat.pow_le_pow_right (by decide) hd)

/-- A number of up to three digits is short. -/
theorem short_of_lt {n : Nat} (h : n < 10 ^ 3) : Short n := by
  unfold Short
  rw [length_decimal]
  split
  · decide
  · exact Nat.lt_succ_of_le ((Nat.digits_length_le_iff (by decide) n).mpr h)

theorem length_sprintf (buf : List Byte) (n : Int) : buf.length ≤ (sprintf buf n).length := by
  simp only [sprintf, List.length_append, List.length_cons, List.length_drop]
  omega

/-- The bytes of a frame. -/
def frame (m : Nat → Byte) (p : Nat) : List Byte :=
  (List.range pageSize).map fun i => m (p * pageSize + i)

@[simp] theorem length_frame (m : Nat → Byte) (p : Nat) : (frame m p).length = pageSize := by
  simp [frame]

/-! ## What is in the file -/

/-- The bytes of a number in the file. -/
def Field (x : List Byte) (n : Int) : Prop :=
  ∃ buf : List Byte, sizeofInt ≤ buf.length ∧ x = (sprintf buf n).take sizeofInt

theorem Field.length {x : List Byte} {n : Int} (h : Field x n) : x.length = sizeofInt := by
  obtain ⟨buf, hb, rfl⟩ := h
  have := length_sprintf buf n
  rw [List.length_take]
  omega

/-- The records of the pages `ps`. -/
inductive Records : List Byte → List (Int × List Byte) → Prop
  | nil : Records [] []
  | cons {x page r : List Byte} {v : Int} {ps : List (Int × List Byte)} (hx : Field x v)
    (hp : page.length = pageSize) (h : Records r ps) : Records (x ++ page ++ r) ((v, page) :: ps)

/-- A number appended to the file. -/
theorem number_spec {d d' : Dump} {n : Int} (hb : sizeofInt ≤ d.buf.length)
    (h : d.number n d.file.length = .ok d') :
    ∃ x, Field x n ∧ d'.file = d.file ++ x ∧ sizeofInt ≤ d'.buf.length := by
  obtain ⟨file, hf, h⟩ := bind_eq_ok.mp h
  rw [Unix.writeAt_end] at hf
  cases hf
  cases h
  exact ⟨_, ⟨d.buf, hb, rfl⟩, rfl, Nat.le_trans hb (length_sprintf d.buf n)⟩

theorem number_ok (d : Dump) (n : Int) : ∃ d', d.number n d.file.length = .ok d' :=
  ⟨_, bind_eq_ok.mpr ⟨_, Unix.writeAt_end .., rfl⟩⟩

/-- A page appended to the file. -/
theorem page_spec {d d' : Dump} {s : Vm} {vpn ppn : Int} (hb : sizeofInt ≤ d.buf.length)
    (h : d.page s vpn ppn d.file.length = .ok d') :
    ∃ x, Field x vpn ∧ d'.file = d.file ++ (x ++ frame s.mainMemory ppn.toNat) ∧ sizeofInt ≤ d'.buf.length := by
  obtain ⟨d₁, h₁, h⟩ := bind_eq_ok.mp h
  obtain ⟨x, hx, hf₁, hb₁⟩ := number_spec hb h₁
  obtain ⟨page, hp, h⟩ := bind_eq_ok.mp h
  obtain ⟨file, hf, h⟩ := bind_eq_ok.mp h
  obtain ⟨hpos, -, rfl⟩ := fetch_eq_ok.mp hp
  have haddr : (ppn * pageSize).toNat = ppn.toNat * pageSize := by
    rw [Int.toNat_mul (by unfold pageSize at hpos; omega) (by omega), Int.toNat_natCast]
  rw [show d.file.length + sizeofInt = d₁.file.length by rw [hf₁, List.length_append, hx.length],
    Unix.writeAt_end] at hf
  cases hf
  cases h
  refine ⟨x, hx, ?_, hb₁⟩
  rw [hf₁, List.append_assoc, haddr]
  rfl

theorem page_ok (d : Dump) (s : Vm) (vpn : Int) {p : Nat} (hp : p < numPhysPages) :
    ∃ d', d.page s vpn p d.file.length = .ok d' := by
  obtain ⟨d₁, h₁⟩ := number_ok d vpn
  have hw : ∀ src, ∃ file, Unix.writeAt d₁.file src (d.file.length + sizeofInt : Nat) = .ok file :=
    fun src => ⟨_, bind_eq_ok.mpr ⟨(), assert_of (by omega), rfl⟩⟩
  have hin : (p * pageSize : Int) + pageSize ≤ memorySize := by
    unfold memorySize pageSize numPhysPages at *
    omega
  have hfetch : s.fetch (p * pageSize) pageSize = .ok _ :=
    fetch_eq_ok.mpr ⟨Int.mul_nonneg (by omega) (by omega), hin, rfl⟩
  obtain ⟨file, hfile⟩ := hw _
  exact ⟨_, bind_eq_ok.mpr ⟨d₁, h₁, bind_eq_ok.mpr ⟨_, hfetch, bind_eq_ok.mpr ⟨file, hfile, rfl⟩⟩⟩⟩

/-! ## Reading it back -/

/-- From `offset` on, the file holds the number `n`. -/
def Reads (f : List Byte) (offset : Nat) (n : Int) : Prop :=
  ∀ buf, ∃ buf', readNumber f buf offset = .ok (n, buf')

/-- From `offset` on, the file holds the pages `vs`. -/
def Encodes (f : List Byte) (offset : Nat) : List Int → Prop
  | [] => True
  | v :: vs => Reads f offset v ∧ Encodes f (offset + sizeofInt + pageSize) vs

/-- The file of a suspended thread: the number of its pages and the pages. -/
def Encoded (f : List Byte) (vs : List Int) : Prop :=
  Reads f 0 vs.length ∧ Encodes f sizeofInt vs

/-- `atoi` of a number's bytes and what the buffer has behind them. -/
theorem readNumber_field {x : List Byte} {n : Int} (hx : Field x n) (f buf rest : List Byte) :
    readNumber (f ++ x ++ rest) buf f.length =
      (i32 (atoi (x ++ buf.drop sizeofInt)) >>= fun m => .ok (m, x ++ buf.drop sizeofInt)) := by
  have hr := Unix.readAt_append f x rest
  rw [hx.length] at hr
  simp only [readNumber, hr, ok_bind, hx.length]
  rfl

/-- A short number is read back. -/
theorem readNumber_short {x : List Byte} {n : Int} (hx : Field x n) (hn : Short n)
    (f buf rest : List Byte) :
    readNumber (f ++ x ++ rest) buf f.length = .ok (n, x ++ buf.drop sizeofInt) := by
  rw [readNumber_field hx]
  obtain ⟨buf', -, rfl⟩ := hx
  have := natAbs_lt_of_short hn
  rw [atoi_take_sprintf hn, i32, defined_of (by omega)]
  rfl

/-- Another one runs together with what the buffer has behind it. -/
theorem readNumber_long {x : List Byte} {n : Int} (hx : Field x n) (hn : ¬ Short n)
    (f rest : List Byte) {buf : List Byte} (hb : buf.drop sizeofInt = List.replicate 96 57#8) :
    readNumber (f ++ x ++ rest) buf f.length = .error .undefined := by
  rw [readNumber_field hx, hb]
  obtain ⟨buf', -, rfl⟩ := hx
  rw [sprintf, List.take_append_of_le_length (Nat.not_lt.mp hn)]
  have hlarge : 10 ^ 95 ≤ (atoi ((decimal n).take sizeofInt ++
      List.replicate 96 57#8)).natAbs + 1 := atoi_take_nines n sizeofInt 95
  have : ¬ (-2 ^ 31 ≤ atoi ((decimal n).take sizeofInt ++ List.replicate 96 57#8) ∧
      atoi ((decimal n).take sizeofInt ++ List.replicate 96 57#8) < 2 ^ 31) := by
    omega
  simp only [i32, defined, if_neg this, error_bind]

theorem Field.reads {x : List Byte} {n : Int} (hx : Field x n) (hn : Short n) (f rest : List Byte) :
    Reads (f ++ x ++ rest) f.length n := fun buf => ⟨_, readNumber_short hx hn f buf rest⟩

/-- So are the pages of short numbers. -/
theorem Records.encodes {r : List Byte} {ps : List (Int × List Byte)} (h : Records r ps)
    (hs : ∀ v ∈ ps.map Prod.fst, Short v) (f : List Byte) :
    Encodes (f ++ r) f.length (ps.map Prod.fst) := by
  induction h generalizing f with
  | nil => trivial
  | @cons x page r v ps hx hp h ih =>
    rw [List.map_cons] at hs ⊢
    have hrest := ih (fun v hv => hs v (List.mem_cons_of_mem _ hv)) (f ++ (x ++ page))
    rw [List.length_append, List.length_append, hx.length, hp, ← Nat.add_assoc, List.append_assoc]
      at hrest
    refine ⟨?_, hrest⟩
    rw [List.append_assoc x, ← List.append_assoc f]
    exact hx.reads (hs v List.mem_cons_self) f (page ++ r)

/-- The file of `SaveAThread`, from its bytes. -/
theorem Records.encoded {x r : List Byte} {ps : List (Int × List Byte)} (h : Records r ps)
    (hx : Field x ps.length) (hl : Short ps.length) (hs : ∀ v ∈ ps.map Prod.fst, Short v) :
    Encoded (x ++ r) (ps.map Prod.fst) := by
  have hr := hx.reads hl [] r
  have he := h.encodes hs x
  rw [hx.length] at he
  refine ⟨?_, he⟩
  rw [List.length_map]
  exact hr

end Nachos.Vm
