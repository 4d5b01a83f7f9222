import Nachos.Impl.Threads.Main
import Nachos.Proof.Filesys.Create

/-!
# Files a part at a time

`Write` of one part after the other is one `WriteAt` of all of them
(`writeParts_eq`), and `Read` of one size after the other returns the whole
file, unless one of the sizes takes the position out of the range of an `int`
while there are bytes left (`Fits`). So `Print` shows what `Copy` was given.
-/

namespace Nachos

open Framework

namespace OpenFile

variable {hdr : FileHeader} {d : Disk}

/-! ## Writing -/

/-- The parts are written from `p` on, as far as the file goes. -/
theorem writeParts_eq (hok : hdr.Ok) (hnd : hdr.blocks.Nodup) {p : Nat} (hp : p ≤ hdr.numBytes.toNat)
    {parts : List (List Byte)} (h31 : p + parts.flatten.length < 2 ^ 31) {w : List Byte}
    (hw : w = parts.flatten.take (hdr.numBytes.toNat - p)) (m : Nat → Fresh) : ∃ d' : Disk,
      writeParts ⟨hdr, p⟩ d m parts = .ok (⟨hdr, (p + w.length : Nat)⟩, d') ∧
      hdr.contents d' = Blocks.overwrite (hdr.contents d) p w ∧ ∀ b ∉ hdr.blocks, d' b = d b := by
  induction parts generalizing p d w m with
  | nil =>
    obtain rfl : w = [] := by simpa using hw
    exact ⟨d, rfl, (Blocks.overwrite_nil _ _).symm, fun _ _ => rfl⟩
  | cons part parts ih =>
    rw [List.flatten_cons, List.length_append] at h31
    have hlen := length_contents hdr d
    have hmax : hdr.numBytes.toNat < 2 ^ 31 := by
      have h₁ := hok.size
      have h₂ : maxFileSize < 2 ^ 31 := by decide
      omega
    obtain ⟨u, hu⟩ : ∃ u, u = part.take (hdr.numBytes.toNat - p) := ⟨_, rfl⟩
    have hulen : u.length = min (hdr.numBytes.toNat - p) part.length := by rw [hu, List.length_take]
    obtain ⟨d₁, hx, hc, hframe⟩ := @writeAt_spec ⟨hdr, p⟩ d hok hnd part.length p part u (by omega)
      (.inl (by omega)) (by omega)
      (by rw [hu, Int.toNat_natCast, Int.toNat_natCast, List.take_length, hlen]) (m 0)
    obtain ⟨d', hx', hc', hframe'⟩ := ih (d := d₁) (p := p + u.length) (by omega) (by omega) rfl
      fun i => m (i + 1)
    -- The rest of the file is for the other parts.
    have hsplit : w = u ++ parts.flatten.take (hdr.numBytes.toNat - (p + u.length)) := by
      rw [hw, List.flatten_cons, List.take_append, ← hu]
      congr 2
      omega
    refine ⟨d', ?_, ?_, fun b hb => (hframe' b hb).trans (hframe b hb)⟩
    · have hw₁ : write ⟨hdr, p⟩ d (m 0) part part.length =
          .ok (⟨hdr, (p + u.length : Nat)⟩, d₁, (u.length : Int)) := by
        unfold write
        rw [hx, ok_bind]
        simp only
        rw [i32_of (show IsInt ((p : Int) + u.length) by unfold IsInt; omega), ok_bind]
        rfl
      rw [writeParts, hw₁, ok_bind]
      simp only [hx', hsplit, List.length_append, Nat.add_assoc]
    · change hdr.contents d₁ = Blocks.overwrite (hdr.contents d) p u at hc
      rw [hc', hc, hsplit, Blocks.overwrite_append]
      rw [hlen, List.length_take]
      omega

/-! ## Reading -/

/-- The position after `i` reads in full. -/
def total (sizes : Nat → Int) : Nat → Int
  | 0 => 0
  | i + 1 => total sizes i + sizes i

theorem total_succ (sizes : Nat → Int) (i : Nat) :
    total sizes (i + 1) = sizes 0 + total (fun j => sizes (j + 1)) i := by
  induction i with
  | zero => simp [total]
  | succ i ih => rw [total, ih, total, Int.add_assoc]

theorem total_nonneg {sizes : Nat → Int} (h : ∀ i, 0 < sizes i) (i : Nat) : 0 ≤ total sizes i := by
  induction i with
  | zero => exact Int.le_refl 0
  | succ i ih =>
    have := h i
    rw [total]
    omega

/-- From `p` on no read of the file ends outside the range of an `int`. -/
def Fits (hdr : FileHeader) (p : Int) (sizes : Nat → Int) : Prop :=
  ∀ i : Nat, p + total sizes i < hdr.fileLength → p + total sizes (i + 1) < 2 ^ 31

variable {sizes : Nat → Int} {p fuel : Nat}

/-- One `Read` of a size in range. -/
theorem read_eq (hok : hdr.Ok) (hp : p ≤ hdr.numBytes.toNat) {n : Int}
    (h31 : p + n < 2 ^ 31 ∨ hdr.fileLength ≤ p) {u : List Byte}
    (hu : u = ((hdr.contents d).drop p).take n.toNat) :
    read ⟨hdr, p⟩ d n = .ok (⟨hdr, (p + u.length : Nat)⟩, u) := by
  have hlen : u.length ≤ hdr.numBytes.toNat - p := by
    rw [hu, List.length_take, List.length_drop, length_contents]
    omega
  have hmax : hdr.numBytes.toNat < 2 ^ 31 := by
    have h₁ := hok.size
    have h₂ : maxFileSize < 2 ^ 31 := by decide
    omega
  unfold read
  simp only
  rw [readAt_eq (f := ⟨hdr, p⟩) hok (by omega) h31, ok_bind, Int.toNat_natCast, ← hu,
    i32_of (show IsInt ((p : Int) + u.length) by unfold IsInt; omega), ok_bind]
  rfl

/-- The sizes after the first one. -/
theorem Fits.tail (hpos : ∀ i, 0 < sizes i) (h : Fits hdr p sizes) {k : Nat}
    (hk : (k : Int) = sizes 0 ∨ hdr.fileLength ≤ p + k) : Fits hdr (p + k : Nat) fun i => sizes (i + 1) := by
  intro i hi
  have hsum := h (i + 1)
  have h0 := total_nonneg (fun j => hpos (j + 1)) i
  rw [total_succ, total_succ] at hsum
  rcases hk with hk | hk
  · have := hsum (by omega)
    omega
  · omega

/-- The whole rest of the file is read. -/
theorem readParts_eq (hok : hdr.Ok) (hpos : ∀ i, 0 < sizes i) (hp : p ≤ hdr.numBytes.toNat)
    (hfits : Fits hdr p sizes) (hfuel : hdr.numBytes.toNat < p + fuel) :
    readParts ⟨hdr, p⟩ d sizes fuel = .ok (some ((hdr.contents d).drop p)) := by
  induction fuel generalizing p sizes with
  | zero => omega
  | succ fuel ih =>
    have hlen := length_contents hdr d
    have hfile : hdr.fileLength = hdr.numBytes := rfl
    have hsize := hpos 0
    have h31 : p + sizes 0 < 2 ^ 31 ∨ hdr.fileLength ≤ p := by
      by_cases hend : hdr.fileLength ≤ p
      · exact .inr hend
      · have := hfits 0
        simp only [total] at this
        omega
    obtain ⟨u, hu⟩ : ∃ u, u = ((hdr.contents d).drop p).take (sizes 0).toNat := ⟨_, rfl⟩
    have hulen : u.length = min (sizes 0).toNat (hdr.numBytes.toNat - p) := by
      rw [hu, List.length_take, List.length_drop, hlen]
    rw [readParts, read_eq hok hp h31 hu, ok_bind]
    simp only
    by_cases hu0 : u.length > 0
    · rw [if_pos hu0, ih (fun i => hpos (i + 1)) (by omega) (hfits.tail hpos (by omega)) (by omega), ok_bind]
      have hsplit : u ++ (hdr.contents d).drop (p + u.length) = (hdr.contents d).drop p := by
        rw [← List.drop_drop]
        have hu' : u = ((hdr.contents d).drop p).take u.length := by
          rw [hu, List.length_take, ← List.take_take, List.take_of_length_le (Nat.le_refl _)]
        nth_rewrite 1 [hu']
        exact List.take_append_drop _ _
      rw [Option.map_some, hsplit]
      rfl
    · rw [if_neg hu0, List.drop_of_length_le (by omega)]
      rfl

/-- If the reads come to their end, all of them were in range. -/
theorem fits_of_readParts (hok : hdr.Ok) (hpos : ∀ i, 0 < sizes i) (hp : p ≤ hdr.numBytes.toNat)
    {bs : List Byte} (h : readParts ⟨hdr, p⟩ d sizes fuel = .ok (some bs)) : Fits hdr p sizes := by
  induction fuel generalizing p sizes bs with
  | zero => cases h
  | succ fuel ih =>
    have hlen := length_contents hdr d
    have hfile : hdr.fileLength = hdr.numBytes := rfl
    have hsize := hpos 0
    intro i hi
    have h0 := total_nonneg hpos i
    rw [readParts] at h
    obtain ⟨⟨f, u⟩, hread, h⟩ := bind_eq_ok.mp h
    obtain ⟨_, hat, -⟩ := bind_eq_ok.mp (show (_ >>= _) = Except.ok _ from hread)
    have hlt : (p : Int) < hdr.fileLength := by omega
    have h31 : (p : Int) + sizes 0 < 2 ^ 31 := (readAt_ok (f := ⟨hdr, p⟩) hsize hlt hat).2
    rw [read_eq hok hp (.inl h31) rfl] at hread
    obtain ⟨rfl, rfl⟩ := Prod.mk.inj (Except.ok.inj hread)
    have hulen : (((hdr.contents d).drop p).take (sizes 0).toNat).length =
        min (sizes 0).toNat (hdr.numBytes.toNat - p) := by
      rw [List.length_take, List.length_drop, hlen]
    simp only at h
    rw [if_pos (by omega)] at h
    obtain ⟨rest, hrest, h⟩ := bind_eq_ok.mp h
    cases i with
    | zero =>
      simp only [total]
      omega
    | succ i =>
      rw [total_succ] at hi ⊢
      have h1 := total_nonneg (fun j => hpos (j + 1)) i
      cases rest with
      | none => cases h
      | some rest =>
        have := ih (fun i => hpos (i + 1)) (by omega) hrest i
        omega

/-- The whole file is read if and only if the reads are in range. -/
theorem readParts_iff (hok : hdr.Ok) (hpos : ∀ i, 0 < sizes i) :
    (∃ fuel, readParts ⟨hdr, 0⟩ d sizes fuel = .ok (some (hdr.contents d))) ↔ Fits hdr 0 sizes := by
  constructor
  · rintro ⟨fuel, h⟩
    exact fits_of_readParts (p := 0) hok hpos (Nat.zero_le _) h
  · intro h
    refine ⟨hdr.numBytes.toNat + 1, ?_⟩
    have := readParts_eq (d := d) hok hpos (Nat.zero_le _) h
      (show hdr.numBytes.toNat < 0 + (hdr.numBytes.toNat + 1) by omega)
    rwa [List.drop_zero] at this

end OpenFile

/-! ## Copy and Print -/

namespace FileSystem

variable {fs : FileSystem} {name : Name} {bytes : List Byte}

/-- `Print` shows the file with the name. -/
theorem Ok.print_eq (h : fs.Ok) (hf : fs.disk.files name.key = some bytes) (m : Nat → Fresh)
    {fuel : Nat} (hfuel : bytes.length < fuel) :
    print m fs name fuel = .ok (some (.printed bytes)) := by
  rcases h.openFile_cases m name with ⟨hno, -⟩ | ⟨e, he, hk, hx⟩
  · rw [hno] at hf
    cases hf
  have hfile := h.disk.files_eq_some.mpr ⟨e, he, hk, rfl⟩
  rw [hf] at hfile
  obtain rfl := Option.some.inj hfile
  have hok := h.disk.header _ (Disk.Ok.live_mem he)
  rw [Disk.Ok.length_fileAt] at hfuel
  have hfits : OpenFile.Fits (fs.disk.header e.sector) (0 : Nat) fun _ => (transferSize : Int) := by
    intro i hi
    have hsize : (fs.disk.header e.sector).fileLength ≤ 3840 := hok.size
    have htransfer : (transferSize : Int) = 128 := rfl
    rw [OpenFile.total]
    omega
  have hread := OpenFile.readParts_eq (d := fs.disk) hok (fun _ => by decide) (Nat.zero_le _) hfits
    (show _ < 0 + fuel by omega)
  rw [List.drop_zero, Nat.cast_zero] at hread
  unfold print
  rw [hx, ok_bind]
  simp only [hread, ok_bind]
  rfl

/-- `Copy` makes a file with the bytes that were read, in whatever parts. -/
theorem Ok.copy_cases (h : fs.Ok) (m : Nat → Nat → Fresh) (name : Name)
    {reads : List (List Byte)} (hlen : bytes.length ≤ maxFileSize) (hreads : reads.flatten = bytes) :
    (fs.disk.Refuses name bytes.length ∧
      copy m fs (some bytes) reads name = .ok (fs, .noOutput)) ∨
    ∃ d' : Disk, copy m fs (some bytes) reads name = .ok ({ fs with disk := d' }, .copied) ∧
      Ok { fs with disk := d' } ∧ d'.files name.key = some bytes := by
  have hmax : maxFileSize < 2 ^ 31 := by decide
  unfold copy
  simp only
  rcases h.create_cases (m 0) name bytes.length (isInt_of_lt (by omega)) with
    ⟨hno, hx⟩ | ⟨-, ⟨-, d₁, e, xs, hx, hok₁, hk, hlive, -, -, hspec⟩ | ⟨hlt, -⟩⟩
  · rw [hx]
    exact .inl ⟨hno, rfl⟩
  · have he : e ∈ d₁.live := hlive.mem_iff.mpr List.mem_cons_self
    have hhdr := hok₁.disk.header _ (Disk.Ok.live_mem he)
    have hsize : (d₁.header e.sector).numBytes = bytes.length := hspec.numBytes
    have hopen : openFile (m 1) { fs with disk := d₁ } name = .ok (some ⟨d₁.header e.sector, 0⟩) := by
      rcases hok₁.openFile_cases (m 1) name with ⟨hno, -⟩ | ⟨e', he', hk', hx'⟩
      · exact absurd hk (Disk.Ok.files_eq_none.mp hno e he)
      · have : e' = e := List.inj_on_of_nodup_map hok₁.disk.keys he' he (hk'.trans hk.symm)
        rw [hx', this]
    obtain ⟨d', hw, hc, hframe⟩ := OpenFile.writeParts_eq (d := d₁) (w := bytes) hhdr
      (hok₁.disk.blocks_nodup (Disk.Ok.live_mem he)) (Nat.zero_le _)
      (show 0 + reads.flatten.length < 2 ^ 31 by rw [hreads]; omega)
      (by rw [hreads, hsize, Int.toNat_natCast, Nat.sub_zero, List.take_length]) (m 2)
    obtain ⟨hok', hlive', hhead, -⟩ := hok₁.write he hframe
    refine .inr ⟨d', ?_, hok', ?_⟩
    · rw [hx, ok_bind]
      simp only [Bool.not_true, Bool.false_eq_true, ite_false]
      rw [hopen, ok_bind]
      simp only
      rw [← Nat.cast_zero, hw]
      rfl
    · refine hok'.disk.files_eq_some.mpr ⟨e, hlive' ▸ he, hk, ?_⟩
      rw [Disk.fileAt, hhead _ (Disk.Ok.live_mem he), hc, Blocks.overwrite_all]
      rw [OpenFile.length_contents, hsize, Int.toNat_natCast]
  · omega

end FileSystem

namespace OpenFile

/-- `Write` of the parts of a string is one `WriteAt` of it, `Read` of any sizes
returns the whole file if and only if they are in range, and `Print` shows what
`Copy` was given. -/
theorem chunking (hdr : FileHeader) (hok : hdr.Ok) (d : Disk) :
    (∀ (parts : List (List Byte)) (m : Nat → Fresh) (m' : Fresh),
      hdr.blocks.Nodup → parts.flatten.length < 2 ^ 31 →
      ∃ (d₁ d₂ : Disk) (count : Int), writeParts ⟨hdr, 0⟩ d m parts = .ok (⟨hdr, count⟩, d₁) ∧
        writeAt ⟨hdr, 0⟩ d m' parts.flatten parts.flatten.length 0 = .ok (d₂, count) ∧
        hdr.contents d₁ = hdr.contents d₂ ∧ ∀ b ∉ hdr.blocks, d₁ b = d₂ b) ∧
    (∀ sizes : Nat → Int, (∀ i : Nat, 0 < sizes i ∧ sizes i < 2 ^ 31) →
      ((∃ fuel : Nat, readParts ⟨hdr, 0⟩ d sizes fuel = .ok (some (hdr.contents d))) ↔
        Fits hdr 0 sizes)) ∧
    ∀ (s : Session) (m : Nat → Nat → Fresh) (input : List Byte) (reads : List (List Byte))
      (name : Name), Session.anySystem.Reachable s → input.length ≤ maxFileSize →
      Unix.PartialReads input transferSize reads →
      (s.fs.disk.Refuses name input.length ∧
        copy m s.fs (some input) reads name = .ok (s.fs, .noOutput)) ∨
      ∃ fs' : FileSystem, copy m s.fs (some input) reads name = .ok (fs', .copied) ∧
        ∀ (m' : Nat → Fresh) (fuel : Nat), input.length < fuel →
          print m' fs' name fuel = .ok (some (.printed input)) := by
  refine ⟨fun parts m m' hnd h31 => ?_, fun sizes hpos => ?_,
    fun s m input reads name hs hlen hreads => ?_⟩
  · obtain ⟨w, hw⟩ : ∃ w, w = parts.flatten.take hdr.numBytes.toNat := ⟨_, rfl⟩
    obtain ⟨d₁, hx₁, hc₁, hf₁⟩ := writeParts_eq (d := d) (p := 0) hok hnd (Nat.zero_le _) (by omega)
      hw m
    obtain ⟨d₂, hx₂, hc₂, hf₂⟩ := @writeAt_spec ⟨hdr, 0⟩ d hok hnd parts.flatten.length 0
      parts.flatten w (Int.le_refl 0) (.inl (by omega)) (Int.le_refl _)
      (by rw [hw, length_contents, Int.toNat_zero, Int.toNat_natCast, Nat.sub_zero, List.take_length]) m'
    rw [Nat.cast_zero, Nat.zero_add] at hx₁
    exact ⟨d₁, d₂, _, hx₁, hx₂, hc₁.trans hc₂.symm, fun b hb => (hf₁ b hb).trans (hf₂ b hb).symm⟩
  · exact readParts_iff hok fun i => (hpos i).1
  · rcases (Session.any_inv hs).fs.copy_cases m name hlen hreads.1 with hno | ⟨d', hx, hok, hf⟩
    · exact .inl hno
    · exact .inr ⟨_, hx, fun m' fuel hfuel => hok.print_eq hf m' hfuel⟩

theorem chunking_sample :
    (∃ (d₁ d₂ : Disk) (count : Int),
      writeParts twoSectors (fun _ _ => 0) (fun _ _ => 0) [[1], [2, 3]] =
        .ok (⟨twoSectors.hdr, count⟩, d₁) ∧
      writeAt twoSectors (fun _ _ => 0) (fun _ => 0) [1, 2, 3] 3 0 = .ok (d₂, count)) ∧
    (∃ fuel : Nat, readParts twoSectors (fun _ _ => 0) (fun _ => 200) fuel =
      .ok (some (twoSectors.hdr.contents fun _ _ => 0))) ∧
    ∃ (s : Session) (fs' : FileSystem),
      copy (fun _ _ _ => 0) s.fs (some [1, 2, 3]) [[1], [2, 3]] ⟨[97], by decide⟩ = .ok (fs', .copied) ∧
      print (fun _ _ => 0) fs' ⟨[97], by decide⟩ 4 = .ok (some (.printed [1, 2, 3])) := by
  obtain ⟨hw, hr, hp⟩ := chunking twoSectors.hdr twoSectors_ok fun _ _ => 0
  refine ⟨?_, ?_, ?_⟩
  · obtain ⟨d₁, d₂, count, h₁, h₂, -⟩ := hw [[1], [2, 3]] (fun _ _ => 0) (fun _ => 0) (by decide)
      (by decide)
    exact ⟨d₁, d₂, count, h₁, h₂⟩
  · refine (hr (fun _ => 200) (fun _ => by decide)).mpr ?_
    intro i hi
    have hlen : twoSectors.hdr.fileLength = 200 := rfl
    rw [total]
    omega
  · obtain ⟨s, hs, -, -, hlive⟩ := Session.exists_formatted (fun _ _ => 0) fun _ _ => 0
    rcases hp s (fun _ _ _ => 0) [1, 2, 3] [[1], [2, 3]] ⟨[97], by decide⟩ hs (by decide)
      ⟨rfl, by decide⟩ with ⟨hno, -⟩ | ⟨fs', hx, hprint⟩
    · exact absurd hno (Session.not_refuses (Session.any_inv hs).fs.disk hlive _ (by decide))
    · exact ⟨s, fs', hx, hprint _ 4 (by decide)⟩

/-- A byte, and then as many as an `int` can say. -/
theorem not_chunking : ¬ ∃ fuel : Nat, readParts twoSectors (fun _ _ => 0)
    (fun i => if i = 0 then 1 else 2 ^ 31 - 1) fuel =
      .ok (some (twoSectors.hdr.contents fun _ _ => 0)) := by
  rintro ⟨fuel, h⟩
  change readParts ⟨twoSectors.hdr, (0 : Nat)⟩ _ _ fuel = _ at h
  have hfits := fits_of_readParts twoSectors_ok (fun i => by split <;> decide) (Nat.zero_le _) h 1
  exact absurd (hfits (by decide)) (by decide)

end OpenFile

end Nachos
