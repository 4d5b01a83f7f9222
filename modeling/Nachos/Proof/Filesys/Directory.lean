import Mathlib.Data.List.TakeWhile
import Nachos.Proof.Filesys.OpenFile

/-!
# The directory and the free map on the disk

The two files of the file system itself: what is read from them is the `table`
and the `freeMap` of the disk, and what is written back is read again
(`writeBack_spec`). `findIndex_eq` says that names are compared by their keys.
-/

namespace Nachos

open Framework

/-! ## Names -/

/-- The characters of a name in a directory entry that count. -/
theorem strncmpEq_iff {n : Nat} {as cs : List Byte} (ha : n ≤ as.length) (hc : (0 : Byte) ∉ cs) :
    strncmpEq n as (cs ++ [0]) = true ↔ (as.take n).takeWhile (· ≠ 0) = cs.take n := by
  induction n generalizing as cs with
  | zero => simp [strncmpEq]
  | succ n ih =>
    obtain ⟨a, as, rfl⟩ := List.exists_cons_of_length_pos (show 0 < as.length by omega)
    cases cs with
    | nil =>
      by_cases h0 : a = 0#8
      · simp [strncmpEq, h0]
      · simp [strncmpEq, h0]
    | cons c cs =>
      simp only [List.mem_cons, not_or] at hc
      have ih := ih (show n ≤ as.length by simpa using ha) hc.2
      by_cases e : a = c
      · subst e
        have h0 : a ≠ 0#8 := Ne.symm hc.1
        simpa [strncmpEq, h0, List.takeWhile_cons] using ih
      · simp only [strncmpEq, List.cons_append, e, decide_false, Bool.false_and, Bool.false_eq_true,
          List.take_succ_cons, false_iff]
        intro h
        by_cases h0 : a = 0
        · simp [h0] at h
        · rw [List.takeWhile_cons_of_pos (by simpa using h0)] at h
          exact e (List.cons.inj h).1

theorem takeWhile_of_notMem {cs : List Byte} (h : (0 : Byte) ∉ cs) (ds : List Byte) :
    (cs ++ 0 :: ds).takeWhile (· ≠ 0) = cs := by
  induction cs with
  | nil => simp
  | cons c cs ih =>
    simp only [List.mem_cons, not_or] at h
    rw [List.cons_append, List.takeWhile_cons_of_pos (by simpa using Ne.symm h.1), ih h.2]

/-- The key of an entry that `strncpy` made. -/
theorem key_strncpy (dst : List Byte) (name : Name) :
    ((strncpy dst name fileNameMaxLen).take fileNameMaxLen).takeWhile (· ≠ 0) = name.key := by
  obtain ⟨cs, hcs⟩ := name
  have hmem : (0 : Byte) ∉ cs.take fileNameMaxLen := fun hc => hcs (List.mem_of_mem_take hc)
  have hlen : (cs.take fileNameMaxLen ++ List.replicate (fileNameMaxLen - cs.length) (0 : Byte)).length =
      fileNameMaxLen := by
    simp only [List.length_append, List.length_take, List.length_replicate]
    omega
  simp only [strncpy, Name.key]
  rw [List.take_left' hlen]
  cases hn : fileNameMaxLen - cs.length with
  | zero =>
    rw [List.replicate_zero, List.append_nil, List.takeWhile_eq_self_iff]
    intro c hc
    simpa using fun (h0 : c = 0) => hmem (h0 ▸ hc)
  | succ n => rw [List.replicate_succ, takeWhile_of_notMem hmem]

/-! ## Entries -/

/-- The fields have their sizes. -/
structure DirectoryEntry.Ok (e : DirectoryEntry) : Prop where
  pad₁ : e.pad₁.length = 3
  sector : IsInt e.sector
  name : e.name.length = fileNameMaxLen + 1
  pad₂ : e.pad₂.length = 2

theorem dirEntry_lawful : dirEntry.Lawful DirectoryEntry.Ok where
  length e h := by
    have := int_lawful.length _ h.sector
    simp only [dirEntry, List.length_append, List.length_cons, h.pad₁, h.name, h.pad₂, this]
    rfl
  decode e h := by
    have hint := int_lawful.length _ h.sector
    have hdec := int_lawful.decode _ h.sector
    obtain ⟨inUse, pad₁, sector, name, pad₂⟩ := e
    obtain ⟨h₁, -, h₂, h₃⟩ := h
    simp only [show int.width = 4 from rfl, fileNameMaxLen] at *
    simp only [dirEntry, DirectoryEntry.mk.injEq]
    refine ⟨?_, ?_, ?_, ?_, ?_⟩
    · cases inUse <;> simp
    · simp [List.drop_succ_cons, h₁]
    · rw [List.append_assoc, List.append_assoc, List.drop_left' (by simp [h₁]), List.take_left' hint, hdec]
    · rw [List.append_assoc, List.drop_left' (by simp [h₁, hint]), List.take_left' h₂]
    · rw [List.drop_left' (by simp [h₁, h₂, hint]), List.take_of_length_le (by omega)]
  ok bs hlen := by
    have : bs.length = 20 := hlen
    refine ⟨by simp [dirEntry, this], int_lawful.ok _ ?_, ?_, by simp [dirEntry, this]⟩
    · simp [int, this]
    · simp [dirEntry, this, fileNameMaxLen]

/-! ## The table -/

/-- One more element with `p`. -/
theorem perm_filter_set {α : Type*} {p : α → Bool} {t : List α} {i : Nat} {e e' : α}
    (h : t[i]? = some e) (he : p e = false) (he' : p e' = true) :
    ((t.set i e').filter p).Perm (e' :: t.filter p) := by
  induction t generalizing i with
  | nil => simp at h
  | cons a t ih =>
    cases i with
    | zero =>
      obtain rfl : a = e := by simpa using h
      simp [he, he']
    | succ i =>
      have ih := ih (i := i) (by simpa using h)
      rw [List.set_cons_succ]
      cases ha : p a with
      | true =>
        rw [List.filter_cons_of_pos ha, List.filter_cons_of_pos ha]
        exact (ih.cons a).trans (.swap e' a _)
      | false =>
        rw [List.filter_cons_of_neg (by simp [ha]), List.filter_cons_of_neg (by simp [ha])]
        exact ih

theorem modify_eq_set {α : Type*} {t : List α} {i : Nat} {e : α} (h : t[i]? = some e) (f : α → α) :
    t.modify i f = t.set i (f e) := by
  apply List.ext_getElem?
  intro j
  rw [List.getElem?_modify, List.getElem?_set]
  have hi := (List.getElem?_eq_some_iff.mp h).1
  by_cases ej : i = j
  · subst ej
    rw [if_pos rfl, if_pos hi, h]
    simp
  · simp [ej]

namespace Directory

variable {t : Directory} {name : Name}

/-- The lookup of a name. -/
theorem find_cases (hok : ∀ e ∈ t, e.Ok) (name : Name) :
    ((∀ e ∈ t, e.inUse = true → e.key ≠ name.key) ∧ t.findIndex name = none ∧ t.find name = -1) ∨
    ∃ i e, t.findIndex name = some i ∧ t[i]? = some e ∧ e.inUse = true ∧ e.key = name.key ∧
      t.find name = e.sector := by
  have hkey : ∀ e ∈ t, strncmpEq fileNameMaxLen e.name (name.1 ++ [0]) = true ↔ e.key = name.key :=
    fun e he => strncmpEq_iff (by have := (hok e he).name; omega) name.2
  cases hi : t.findIndex name with
  | none =>
    refine .inl ⟨fun e he hu hk => ?_, rfl, by simp [find, hi]⟩
    have := List.findIdx?_eq_none_iff.mp hi e he
    rw [hu, (hkey e he).mpr hk] at this
    cases this
  | some i =>
    obtain ⟨hlt, hp, -⟩ := List.findIdx?_eq_some_iff_getElem.mp hi
    obtain ⟨hu, hk⟩ := Bool.and_eq_true_iff.mp hp
    refine .inr ⟨i, t[i], rfl, List.getElem?_eq_getElem hlt, hu, (hkey _ (List.getElem_mem hlt)).mp hk, ?_⟩
    simp [find, hi, hlt]

/-- A new entry goes to a place that is not in use. -/
theorem add_cases (h : t.findIndex name = none) (sector : Int) :
    ((∀ e ∈ t, e.inUse = true) ∧ t.add name sector = none) ∨ ∃ i e, t[i]? = some e ∧ e.inUse = false ∧
      t.add name sector = some (t.set i
        { e with inUse := true, name := strncpy e.name name fileNameMaxLen, sector := sector }) := by
  unfold add
  rw [if_neg (by simp [h])]
  cases hi : t.findIdx? fun e => !e.inUse with
  | none => exact .inl ⟨by simpa using hi, rfl⟩
  | some i =>
    obtain ⟨hlt, hp, -⟩ := List.findIdx?_eq_some_iff_getElem.mp hi
    have hget := List.getElem?_eq_getElem hlt
    refine .inr ⟨i, t[i], hget, by simpa using hp, ?_⟩
    rw [Option.map_some, modify_eq_set hget]

theorem remove_eq {i : Nat} {e : DirectoryEntry} (h : t.findIndex name = some i)
    (hget : t[i]? = some e) : t.remove name = t.set i { e with inUse := false } := by
  unfold remove
  rw [h]
  exact modify_eq_set hget _

/-- The directory is read from its file. -/
theorem fetchFrom_eq (t : Directory) {d : Disk} {file : OpenFile} (hok : file.hdr.Ok)
    (hn : file.hdr.numBytes = directoryFileSize) :
    t.fetchFrom d file = .ok (dirEntry.decodeAll numDirEntries (file.hdr.contents d)) := by
  have hlen := OpenFile.length_contents file.hdr d
  rw [hn, Int.toNat_natCast] at hlen
  unfold fetchFrom
  rw [← hn, OpenFile.readAt_all hok, ok_bind, Codec.decodeAll_append]
  · rfl
  · rw [hlen]
    decide

/-- The directory is written to its file. -/
theorem writeBack_spec (ht : t.length = numDirEntries) (htok : ∀ e ∈ t, e.Ok) {d : Disk}
    {file : OpenFile} (hok : file.hdr.Ok) (hn : file.hdr.numBytes = directoryFileSize)
    (hnd : file.hdr.blocks.Nodup) (m : Fresh) : ∃ d', t.writeBack d m file = .ok d' ∧
      dirEntry.decodeAll numDirEntries (file.hdr.contents d') = t ∧
      ∀ b ∉ file.hdr.blocks, d' b = d b := by
  have hlen : ((dirEntry.encodeAll t).length : Int) = file.hdr.numBytes := by
    rw [Codec.length_encodeAll dirEntry_lawful htok, ht, hn]
    rfl
  obtain ⟨d', n, hx, hc, hframe⟩ := OpenFile.writeAt_all (d := d) hok hnd hlen m
  refine ⟨d', ?_, ?_, hframe⟩
  · unfold writeBack
    rw [← hn, hx]
    rfl
  · rw [hc, ← ht, Codec.decodeAll_encodeAll dirEntry_lawful htok]

end Directory

/-! ## The free map -/

namespace PersistentBitmap

/-- The map is read from its file. -/
theorem fetch_eq {d : Disk} {file : OpenFile} (hok : file.hdr.Ok)
    (hn : file.hdr.numBytes = freeMapFileSize) : fetch d file numSectors =
      .ok ⟨numSectors, word.decodeAll (numSectors / bitsInWord) (file.hdr.contents d)⟩ := by
  have hlen := OpenFile.length_contents file.hdr d
  rw [hn, Int.toNat_natCast] at hlen
  have hmap : (Bitmap.new numSectors).map.length = numSectors / bitsInWord := by
    simp [Bitmap.new, divRoundUp, numSectors, bitsInWord]
  unfold fetch
  simp only [hmap]
  rw [show ((numSectors / bitsInWord * word.width : Nat) : Int) = file.hdr.numBytes from hn.symm,
    OpenFile.readAt_all hok, ok_bind, Codec.decodeAll_append]
  · rfl
  · rw [hlen]
    decide

/-- The map is written to its file. -/
theorem writeBack_spec {b : Bitmap} (hb : b.map.length = numSectors / bitsInWord) {d : Disk}
    {file : OpenFile} (hok : file.hdr.Ok) (hn : file.hdr.numBytes = freeMapFileSize)
    (hnd : file.hdr.blocks.Nodup) (m : Fresh) : ∃ d', writeBack b d m file = .ok d' ∧
      word.decodeAll (numSectors / bitsInWord) (file.hdr.contents d') = b.map ∧
      ∀ b ∉ file.hdr.blocks, d' b = d b := by
  have htrue : ∀ w ∈ b.map, True := fun _ _ => trivial
  have hlen : ((word.encodeAll b.map).length : Int) = file.hdr.numBytes := by
    rw [Codec.length_encodeAll word_lawful htrue, hb, hn]
    rfl
  obtain ⟨d', n, hx, hc, hframe⟩ := OpenFile.writeAt_all (d := d) hok hnd hlen m
  refine ⟨d', ?_, ?_, hframe⟩
  · unfold writeBack
    rw [hb, show ((numSectors / bitsInWord * word.width : Nat) : Int) = file.hdr.numBytes from hn.symm, hx]
    rfl
  · rw [hc, ← hb, Codec.decodeAll_encodeAll word_lawful htrue]

end PersistentBitmap

end Nachos
