import Nachos.Impl.Threads.Main
import Nachos.Proof.Filesys.Capacity
import Nachos.Proof.Filesys.Chunks
import Nachos.Proof.Filesys.Listing

/-!
# Runs of `main`, one after the other

Each run of Nachos mounts or formats the disk that the one before it left, and does
what its options on files say. However many there were, the disk holds a map from names
to files, and each run does to it, and shows of it, what the options mean
(`reachable_commands`): what was copied in one run is printed by any later one.
-/

namespace Nachos

open Framework

/-! ## The commands, one by one -/

namespace FileSystem

variable {fs : FileSystem} {bytes : List Byte}

/-- The files after `Copy`. -/
theorem Ok.copy_files (h : fs.Ok) (m : Nat → Nat → Fresh) (name : Name) {reads : List (List Byte)}
    (hlen : bytes.length ≤ maxFileSize) (hreads : reads.flatten = bytes) :
    (¬ Vacant fs.disk.files name.key ∧ copy m fs (some bytes) reads name = .ok (fs, .noOutput)) ∨
    (Vacant fs.disk.files name.key ∧
      ∃ d' : Disk, copy m fs (some bytes) reads name = .ok ({ fs with disk := d' }, .copied) ∧
        Ok { fs with disk := d' } ∧
        d'.files = Function.update fs.disk.files name.key (some bytes)) := by
  have hmax : maxFileSize < 2 ^ 31 := by decide
  have hiff : fs.disk.Refuses name bytes.length ↔ ¬ Vacant fs.disk.files name.key :=
    h.disk.refuses_iff (Nat.cast_le.mpr hlen)
  unfold copy
  simp only
  rcases h.create_cases (m 0) name bytes.length (isInt_of_lt (by omega)) with
    ⟨hno, hx⟩ | ⟨hno, ⟨-, d₁, e, xs, hx, hok₁, hk, hlive, hkeep, -, hspec⟩ | ⟨hlt, -⟩⟩
  · rw [hx]
    exact .inl ⟨hiff.mp hno, rfl⟩
  · have he : e ∈ d₁.live := hlive.mem_iff.mpr List.mem_cons_self
    have hhdr := hok₁.disk.header _ (Disk.Ok.live_mem he)
    have hsize : (d₁.header e.sector).numBytes = bytes.length := hspec.numBytes
    have hopen : openFile (m 1) { fs with disk := d₁ } name = .ok (some ⟨d₁.header e.sector, 0⟩) := by
      rcases hok₁.openFile_cases (m 1) name with ⟨hno, -⟩ | ⟨e', he', hk', hx'⟩
      · exact absurd hk (Disk.Ok.files_eq_none.mp hno e he)
      · have : e' = e := List.inj_on_of_nodup_map hok₁.disk.keys he' he (hk'.trans hk.symm)
        rw [hx', this]
    obtain ⟨d', hw, hc, hframe⟩ := OpenFile.writeParts_eq (d := d₁) (w := bytes) hhdr
      (hok₁.disk.blocks_nodup (Disk.Ok.live_mem he)) (Nat.zero_le _)
      (show 0 + reads.flatten.length < 2 ^ 31 by rw [hreads]; omega)
      (by rw [hreads, hsize, Int.toNat_natCast, Nat.sub_zero, List.take_length]) (m 2)
    obtain ⟨hok', hlive', hhead, hfile⟩ := hok₁.write he hframe
    have hcontents : d'.fileAt e.sector = bytes := by
      rw [Disk.fileAt, hhead _ (Disk.Ok.live_mem he), hc, Blocks.overwrite_all]
      rw [OpenFile.length_contents, hsize, Int.toNat_natCast]
    refine .inr ⟨not_not.mp fun hc => hno (hiff.mpr hc), d', ?_, hok', ?_⟩
    · rw [hx, ok_bind]
      simp only [Bool.not_true, Bool.false_eq_true, ite_false]
      rw [hopen, ok_bind]
      simp only
      rw [← Nat.cast_zero, hw]
      rfl
    · rw [hok₁.disk.files_write hok'.disk hlive' he hfile, h.disk.files_extend hok₁.disk hlive hkeep,
        Function.update_idem, hk, hcontents]
  · omega

/-- The files after `Remove`. -/
theorem Ok.remove_files (h : fs.Ok) (m : Nat → Fresh) (name : Name) : ∃ d' b,
    fs.remove m name = .ok ({ fs with disk := d' }, b) ∧ Ok { fs with disk := d' } ∧
      d'.files = Function.update fs.disk.files name.key none := by
  rcases h.remove_cases m name with ⟨hx, hno⟩ | ⟨d', e, hx, hok, hk, hlive, hkeep⟩
  · refine ⟨fs.disk, false, hx, h, ?_⟩
    rw [← hno, Function.update_eq_self]
  · have hsub : fs.disk.Keeps d' d'.roots := fun r hr =>
      hkeep r ((Disk.roots_cons hlive).mem_iff.mpr (List.mem_cons_of_mem _ hr))
    refine ⟨d', true, hx, hok, ?_⟩
    rw [h.disk.files_shrink hok.disk hlive hsub, hk]

/-- What `Print` shows, where there is the file or not. -/
def shown : Option (List Byte) → PrintResult
  | none => .notOpened
  | some bytes => .printed bytes

/-- `Print` of any name. -/
theorem Ok.print_shown (h : fs.Ok) (m : Nat → Fresh) (name : Name) {fuel : Nat}
    (hfuel : maxFileSize < fuel) :
    print m fs name fuel = .ok (some (shown (fs.disk.files name.key))) := by
  cases hf : fs.disk.files name.key with
  | none =>
    rcases h.openFile_cases m name with ⟨-, hx⟩ | ⟨e, he, hk, -⟩
    · unfold print
      rw [hx, ok_bind]
      rfl
    · exact absurd hk (Disk.Ok.files_eq_none.mp hf e he)
  | some bytes =>
    refine h.print_eq hf m ?_
    obtain ⟨e, he, -, rfl⟩ := h.disk.files_eq_some.mp hf
    have hsize := (h.disk.header _ (Disk.Ok.live_mem he)).size
    rw [Disk.Ok.length_fileAt]
    omega

end FileSystem

/-! ## What the options mean -/

namespace FileFlags

variable (flags : FileFlags)

/-- The UNIX file fits in one of Nachos, and `ReadPartial` returns it. -/
def Fits : Prop :=
  ∀ input reads name, flags.copyFile = some (some input, reads, name) →
    input.length ≤ maxFileSize ∧ Unix.PartialReads input transferSize reads

/-- The files that are left by `-f` and `-r`. -/
def kept (files : List Byte → Option (List Byte)) : List Byte → Option (List Byte) :=
  let files := if flags.formatFlag then fun _ => none else files
  match flags.removeFileName with
  | none => files
  | some name => Function.update files name.key none

/-- `-cp` adds a file, if there can be one more of that name, or nothing. -/
def Copies (files : List Byte → Option (List Byte)) (result : Option CopyResult)
    (files' : List Byte → Option (List Byte)) : Prop :=
  match flags.copyFile with
  | none => result = none ∧ files' = files
  | some (input, _, name) =>
    (result = some .copied ∧ input ≠ none ∧ Vacant files name.key ∧
      files' = Function.update files name.key input) ∨
    (result = some .noInput ∧ input = none ∧ files' = files) ∨
    (result = some .noOutput ∧ input ≠ none ∧ ¬ Vacant files name.key ∧ files' = files)

/-- One run: the files before it, what it shows, and the files after it. -/
structure Performs (files : List Byte → Option (List Byte)) (out : FileOutput)
    (files' : List Byte → Option (List Byte)) : Prop where
  copies : flags.Copies (flags.kept files) out.copied files'
  lists : flags.dirListFlag = true → ∃ keys lines : List (List Byte), keys.Nodup ∧
    (∀ k, k ∈ keys ↔ files' k ≠ none) ∧ out.listed = some lines ∧ List.Forall₂ Line keys lines
  prints : ∀ name, flags.printFileName = some name →
    out.printed = some (FileSystem.shown (files' name.key))

variable {flags} {fs : FileSystem}

theorem fileSystem_ok (flags : FileFlags) (m : Nat → Fresh) {d : Disk} (h : d.Ok) :
    ∃ fs, flags.fileSystem m d = .ok fs ∧ fs.Ok ∧
      fs.disk.files = if flags.formatFlag then fun _ => none else d.files := by
  unfold fileSystem
  by_cases hf : flags.formatFlag = true
  · obtain ⟨fs, hx, hok, hlive⟩ := FileSystem.format_ok m d
    refine ⟨fs, by rw [if_pos hf, hx], hok, ?_⟩
    rw [if_pos hf]
    funext k
    exact Disk.Ok.files_eq_none.mpr fun e he => by rw [hlive] at he; cases he
  · refine ⟨_, by rw [if_neg hf, FileSystem.mount_eq], ⟨h, rfl, rfl⟩, ?_⟩
    rw [if_neg hf]

/-- `-f` and `-r`. -/
theorem remove_ok (flags : FileFlags) (m m' : Nat → Fresh) {d : Disk} (h : d.Ok) :
    ∃ fs fs', flags.fileSystem m d = .ok fs ∧ flags.remove fs m' = .ok fs' ∧ fs'.Ok ∧
      fs'.disk.files = flags.kept d.files := by
  obtain ⟨fs, hx, hok, hfiles⟩ := fileSystem_ok flags m h
  unfold remove kept
  cases hr : flags.removeFileName with
  | none => exact ⟨fs, fs, hx, rfl, hok, hfiles⟩
  | some name =>
    obtain ⟨d', b, hx', hok', hfiles'⟩ := hok.remove_files m' name
    refine ⟨fs, { fs with disk := d' }, hx, ?_, hok', ?_⟩
    · simp only [hx', ok_bind]
      rfl
    · rw [hfiles', hfiles]

theorem copy_ok (hok : fs.Ok) (hf : flags.Fits) (m : Nat → Nat → Fresh) : ∃ fs' result,
    flags.copy fs m = .ok (fs', result) ∧ fs'.Ok ∧
      flags.Copies fs.disk.files result fs'.disk.files := by
  unfold copy Copies
  cases hc : flags.copyFile with
  | none => exact ⟨fs, none, rfl, hok, rfl, rfl⟩
  | some c =>
    obtain ⟨input, reads, name⟩ := c
    cases input with
    | none => exact ⟨fs, some .noInput, rfl, hok, .inr (.inl ⟨rfl, rfl, rfl⟩)⟩
    | some input =>
      obtain ⟨hlen, hreads⟩ := hf input reads name hc
      rcases hok.copy_files m name hlen hreads.1 with
        ⟨hno, hx⟩ | ⟨hvac, d', hx, hok', hfiles⟩
      · refine ⟨fs, some .noOutput, ?_, hok, .inr (.inr ⟨rfl, Option.some_ne_none _, hno, rfl⟩)⟩
        simp only [hx, ok_bind]
        rfl
      · refine ⟨{ fs with disk := d' }, some .copied, ?_, hok',
          .inl ⟨rfl, Option.some_ne_none _, hvac, hfiles⟩⟩
        simp only [hx, ok_bind]
        rfl

theorem list_ok (flags : FileFlags) (hok : fs.Ok) (m : Nat → Fresh) :
    (∀ listed, flags.list fs m = .ok listed → flags.dirListFlag = true →
      ∃ keys lines : List (List Byte), keys.Nodup ∧ (∀ k, k ∈ keys ↔ fs.disk.files k ≠ none) ∧
        listed = some lines ∧ List.Forall₂ Line keys lines) ∧
      ((flags.dirListFlag = true → ∀ k, fs.disk.files k ≠ none → k.length < fileNameMaxLen) →
        ∃ listed, flags.list fs m = .ok listed) := by
  obtain ⟨keys, hnd, hmem, hlines, hshort⟩ := hok.list_files m
  unfold list
  by_cases hl : flags.dirListFlag = true
  · rw [if_pos hl]
    refine ⟨fun listed hx _ => ?_, fun h => ?_⟩
    · obtain ⟨lines, hx', he⟩ := bind_eq_ok.mp hx
      obtain rfl := Except.ok.inj he
      exact ⟨keys, lines, hnd, hmem, rfl, hlines lines hx'⟩
    · rw [hshort fun k hk => h hl k ((hmem k).mp hk)]
      exact ⟨_, rfl⟩
  · rw [if_neg hl]
    exact ⟨fun _ _ h => absurd h hl, fun _ => ⟨none, rfl⟩⟩

theorem print_ok (flags : FileFlags) (hok : fs.Ok) (m : Nat → Fresh) {fuel : Nat}
    (hfuel : maxFileSize < fuel) :
    ∃ printed, flags.print fs m fuel = .ok printed ∧ ∀ name, flags.printFileName = some name →
      printed = some (FileSystem.shown (fs.disk.files name.key)) := by
  unfold print
  cases hp : flags.printFileName with
  | none => exact ⟨none, rfl, fun _ h => (nomatch h)⟩
  | some name =>
    refine ⟨_, hok.print_shown m name hfuel, fun name' h => ?_⟩
    obtain rfl := Option.some.inj h
    rfl

/-- One run. -/
theorem performs (flags : FileFlags) (hf : flags.Fits) {d : Disk} (h : d.Ok)
    (m : Nat → Nat → Nat → Fresh) {fuel : Nat} (hfuel : maxFileSize < fuel) : ∃ files',
    (∀ d' out, fileCommands m d flags fuel = .ok (d', out) →
      d'.Ok ∧ d'.files = files' ∧ flags.Performs d.files out files') ∧
    ((flags.dirListFlag = true → ∀ k, files' k ≠ none → k.length < fileNameMaxLen) →
      ∃ r, fileCommands m d flags fuel = .ok r) := by
  obtain ⟨fs, fs₁, hx, hx₁, hok₁, hfiles₁⟩ := remove_ok flags (m 0 0) (m 1 0) h
  obtain ⟨fs₂, result, hx₂, hok₂, hcopy⟩ := copy_ok hok₁ hf (m 2)
  obtain ⟨hlist, hlist'⟩ := list_ok flags hok₂ (m 3 0)
  obtain ⟨printed, hx₄, hprint⟩ := print_ok flags hok₂ (m 4 0) hfuel
  rw [hfiles₁] at hcopy
  have hrun : fileCommands m d flags fuel = do
      let listed ← flags.list fs₂ (m 3 0)
      return (fs₂.disk, ⟨result, listed, printed⟩) := by
    unfold fileCommands
    rw [hx, ok_bind, hx₁, ok_bind, hx₂, ok_bind]
    simp only [hx₄, ok_bind]
  rw [hrun]
  refine ⟨fs₂.disk.files, fun d' out hr => ?_, fun hshort => ?_⟩
  · obtain ⟨listed, hl, hr⟩ := bind_eq_ok.mp hr
    cases hr
    exact ⟨hok₂.disk, rfl, hcopy, hlist listed hl, hprint⟩
  · obtain ⟨listed, hl⟩ := hlist' hshort
    rw [hl]
    exact ⟨_, rfl⟩

end FileFlags

/-! ## Runs -/

/-- Runs of Nachos, one after the other, from a formatted disk. -/
def commandSystem (fuel : Nat) : System Disk (FileFlags × FileOutput) where
  init d := ∃ m d₀ fs, FileSystem.format m d₀ = .ok fs ∧ fs.disk = d
  step d a d' := a.1.Fits ∧ ∃ m, fileCommands m d a.1 fuel = .ok (d', a.2)

/-- On the disk that any number of runs left, the next one does what its options mean, and
it does not abort, unless it is to list a name that fills its field. -/
theorem reachable_commands {fuel : Nat} (hfuel : maxFileSize < fuel) {d : Disk}
    (h : (commandSystem fuel).Reachable d) (flags : FileFlags) (hf : flags.Fits)
    (m : Nat → Nat → Nat → Fresh) : ∃ files',
    (∀ d' out, fileCommands m d flags fuel = .ok (d', out) →
      d'.files = files' ∧ flags.Performs d.files out files') ∧
    ((flags.dirListFlag = true → ∀ k, files' k ≠ none → k.length < fileNameMaxLen) →
      ∃ r, fileCommands m d flags fuel = .ok r) := by
  have hok : d.Ok := by
    refine h.invariant (I := Disk.Ok) ?_ ?_
    · rintro _ ⟨m, d₀, fs, hx, rfl⟩
      obtain ⟨fs', hx', hok, -⟩ := FileSystem.format_ok m d₀
      obtain rfl : fs = fs' := Except.ok.inj (hx.symm.trans hx')
      exact hok.disk
    · rintro d ⟨flags, out⟩ d' hd ⟨hf, m, hx⟩
      obtain ⟨_, hrun, -⟩ := FileFlags.performs flags hf hd m hfuel
      exact (hrun d' out hx).1
  obtain ⟨files', hrun, hret⟩ := FileFlags.performs flags hf hok m hfuel
  exact ⟨files', fun d' out hx => (hrun d' out hx).2, hret⟩

/-- A copy, and a print of it in the next run. -/
theorem reachable_commands_copied : ∃ (d d₁ d₂ : Disk) (out₁ out₂ : FileOutput),
    (commandSystem 4000).Reachable d ∧
    fileCommands (fun _ _ _ _ => 0) d
      ⟨false, none, some (some [1, 2, 3], [[1], [2, 3]], ⟨[97], by decide⟩), false, none⟩ 4000 =
        .ok (d₁, out₁) ∧ out₁.copied = some .copied ∧
    fileCommands (fun _ _ _ _ => 0) d₁ ⟨false, none, none, false, some ⟨[97], by decide⟩⟩ 4000 =
      .ok (d₂, out₂) ∧ out₂.printed = some (.printed [1, 2, 3]) := by
  have hfuel : maxFileSize < 4000 := by decide
  obtain ⟨fs, hfs, hok, hlive⟩ := FileSystem.format_ok (fun _ _ => 0) fun _ _ => 0
  have hinit : (commandSystem 4000).Reachable fs.disk := .init ⟨_, _, fs, hfs, rfl⟩
  have hfits : FileFlags.Fits
      ⟨false, none, some (some [1, 2, 3], [[1], [2, 3]], ⟨[97], by decide⟩), false, none⟩ := by
    rintro input reads name he
    cases he
    exact ⟨by decide, rfl, by decide⟩
  obtain ⟨files₁, hrun₁, hret₁⟩ := reachable_commands hfuel hinit _ hfits fun _ _ _ _ => 0
  obtain ⟨⟨d₁, out₁⟩, hx₁⟩ := hret₁ Bool.false_ne_true.elim
  obtain ⟨hfiles₁, hperf₁⟩ := hrun₁ d₁ out₁ hx₁
  have hreach : (commandSystem 4000).Reachable d₁ := hinit.step (a := (_, out₁)) ⟨hfits, _, hx₁⟩
  obtain ⟨files₂, hrun₂, hret₂⟩ := reachable_commands hfuel hreach
    ⟨false, none, none, false, some ⟨[97], by decide⟩⟩ (fun _ _ _ he => nomatch he) fun _ _ _ _ => 0
  obtain ⟨⟨d₂, out₂⟩, hx₂⟩ := hret₂ Bool.false_ne_true.elim
  obtain ⟨-, hperf₂⟩ := hrun₂ d₂ out₂ hx₂
  have hcopied : out₁.copied = some .copied ∧
      files₁ = Function.update fs.disk.files [97] (some [1, 2, 3]) := by
    rcases hperf₁.copies with ⟨hc, -, -, hf⟩ | ⟨-, hc, -⟩ | ⟨-, -, hc, -⟩
    · exact ⟨hc, hf⟩
    · cases hc
    · exact absurd (hok.disk.vacant_of_live_nil hlive _) hc
  have hsame : files₂ = files₁ := hperf₂.copies.2.trans hfiles₁
  refine ⟨fs.disk, d₁, d₂, out₁, out₂, hinit, hx₁, hcopied.1, hx₂, ?_⟩
  rw [hperf₂.prints _ rfl, hsame, hcopied.2]
  rfl

end Nachos
