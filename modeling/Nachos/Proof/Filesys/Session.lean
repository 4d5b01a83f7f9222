import Mathlib.Data.Set.Finite.Basic
import Nachos.Proof.Filesys.FileSystem
import Nachos.Proof.Filesys.Range

/-!
# Programs that use the file system

Every run of a program from a formatted disk is a run of the finite map
(`reachable_refines`), and in every state of it each sector in use is marked
once (`reachable_accounted`). Both come from one invariant, which every
operation keeps.
-/

namespace Nachos

open Framework

namespace Session

variable {s : Session} {m : Nat → Fresh}

/-- The file system is in order, and each handle has the header of its file. -/
structure Inv (s : Session) : Prop where
  fs : s.fs.Ok
  handles : ∀ h ∈ s.handles, ∀ k, h.name = some k → ∃ e ∈ s.fs.disk.live, e.key = k ∧
    h.file.hdr = s.fs.disk.header e.sector

/-- What an operation does, and what it does not: a `WriteAt` changes neither
the directory nor the free map. -/
structure Simulates (s : Session) (m : Nat → Fresh) (op : FileOp) (s' : Session) (r : FileResult) :
    Prop where
  exec : s.exec m op = .ok (s', r)
  inv : s'.Inv
  step : FileMap.Step s.view (op, r) s'.view
  frame : ∀ h src n pos, op = .writeAt h src n pos →
    s'.fs.disk.fileAt directorySector = s.fs.disk.fileAt directorySector ∧
    s'.fs.disk.fileAt freeMapSector = s.fs.disk.fileAt freeMapSector

/-- The file of a handle that is of use. -/
theorem Inv.handle (h : s.Inv) {i : Nat} {f : Handle} (hi : s.handles[i]? = some f)
    (hf : f.name ≠ none) : ∃ e ∈ s.fs.disk.live, f.file.hdr = s.fs.disk.header e.sector ∧
      s.view.At i e.key (s.fs.disk.fileAt e.sector) := by
  obtain ⟨k, hk⟩ := Option.ne_none_iff_exists'.mp hf
  obtain ⟨e, he, rfl, hhdr⟩ := h.handles f (List.mem_of_getElem? hi) k hk
  refine ⟨e, he, hhdr, ?_, h.fs.disk.files_eq_some.mpr ⟨e, he, rfl, rfl⟩⟩
  simp [view, hi, hk]

theorem Inv.files_ne_none (h : s.Inv) {e : DirectoryEntry} {k : List Byte}
    (he : e ∈ s.fs.disk.live) (hk : e.key = k) : s.view.files k ≠ none := by
  change s.fs.disk.files k ≠ none
  rw [h.fs.disk.files_eq_some.mpr ⟨e, he, hk, rfl⟩]
  nofun

/-- `Create` of any size. -/
theorem Inv.create_cases (h : s.Inv) (m : Nat → Fresh) (name : Name) (size : Int)
    (hsize : IsInt size) :
    s.exec m (.create name size) = .ok (s, .success false) ∨
    (size ≤ maxFileSize ∧ ∃ (s' : Session) (f : List Byte),
      s.exec m (.create name size) = .ok (s', .success true) ∧ s'.Inv ∧ f.length = size.toNat ∧
      s.view.files name.key = none ∧
      s'.view = { s.view with files := Function.update s.view.files name.key (some f) }) ∨
    (maxFileSize < size ∧ s.exec m (.create name size) = .error .undefined) := by
  rcases h.fs.create_cases m name size hsize with
    ⟨-, hx⟩ | ⟨hno, ⟨hmax, d', e, xs, hx, hok, hk, hlive, hold, -, hspec⟩ | ⟨hmax, hx⟩⟩
  · exact .inl (by simp [exec, hx])
  · refine .inr (.inl ⟨hmax, { s with fs := { s.fs with disk := d' } }, d'.fileAt e.sector, ?_,
      ⟨hok, fun f hf k hfk => ?_⟩, ?_, ?_, ?_⟩)
    · simp [exec, hx]
    · obtain ⟨e', he', hk', hhdr⟩ := h.handles f hf k hfk
      refine ⟨e', hlive.mem_iff.mpr (List.mem_cons_of_mem e he'), hk', ?_⟩
      rw [hhdr, (hold _ (Disk.Ok.live_mem he')).1]
    · rw [Disk.Ok.length_fileAt, hspec.numBytes]
    · by_contra hc
      exact hno (.inl hc)
    · rw [view, h.fs.disk.files_extend hok.disk hlive hold, hk]
      rfl
  · exact .inr (.inr ⟨hmax, by simp [exec, hx]⟩)

theorem Inv.create (h : s.Inv) (m : Nat → Fresh) (name : Name) {size : Int} (h0 : 0 ≤ size)
    (hmax : size ≤ maxFileSize) : ∃ s' r, s.Simulates m (.create name size) s' r := by
  have h31 : maxFileSize < 2 ^ 31 := by decide
  rcases h.create_cases m name size (by unfold IsInt; omega) with
    hx | ⟨-, s', f, hx, hinv, hlen, hno, hview⟩ | ⟨hlt, -⟩
  · exact ⟨s, .success false, hx, h, rfl, nofun⟩
  · exact ⟨s', .success true, hx, hinv, ⟨hno, f, by omega, hview⟩, nofun⟩
  · omega

theorem Inv.openFile (h : s.Inv) (m : Nat → Fresh) (name : Name) :
    ∃ s' r, s.Simulates m (.openFile name) s' r := by
  rcases h.fs.openFile_cases m name with ⟨hno, hx⟩ | ⟨e, he, hk, hx⟩
  · refine ⟨s, .handle none, ?_, h, ⟨hno, rfl⟩, nofun⟩
    simp [exec, hx]
  · refine ⟨{ s with handles := s.handles ++ [⟨⟨s.fs.disk.header e.sector, 0⟩, some name.key⟩] },
      .handle (some s.handles.length), ?_, ⟨h.fs, fun f hf k hfk => ?_⟩, ⟨?_, ?_, ?_⟩, nofun⟩
    · simp [exec, hx]
    · rcases List.mem_append.mp hf with hf | hf
      · exact h.handles f hf k hfk
      · obtain rfl := List.mem_singleton.mp hf
        cases hfk
        exact ⟨e, he, hk, rfl⟩
    · exact h.files_ne_none he hk
    · simp [view]
    · simp [view]

/-- The handles of a file that is removed. -/
theorem view_close (k : List Byte) (hs : List Handle) :
    (hs.map fun h => if h.name = some k then { h with name := none } else h).map Handle.name =
      FileMap.close k (hs.map Handle.name) := by
  rw [FileMap.close, List.map_map, List.map_map]
  refine List.map_congr_left fun h _ => ?_
  simp only [Function.comp_apply]
  split <;> rfl

theorem Inv.remove (h : s.Inv) (m : Nat → Fresh) (name : Name) :
    ∃ s' r, s.Simulates m (.remove name) s' r := by
  rcases h.fs.remove_cases m name with ⟨hx, hno⟩ | ⟨d', e, hx, hok, hk, hlive, hold⟩
  · refine ⟨s, .success false, ?_, h, ⟨hno, rfl⟩, nofun⟩
    simp [exec, hx]
  · have he : e ∈ s.fs.disk.live := hlive.mem_iff.mpr List.mem_cons_self
    have hkeep : s.fs.disk.Keeps d' d'.roots := fun r hr =>
      hold r ((Disk.roots_cons hlive).mem_iff.mpr (List.mem_cons_of_mem _ hr))
    refine ⟨⟨{ s.fs with disk := d' },
      s.handles.map fun h => if h.name = some name.key then { h with name := none } else h⟩,
      .success true, ?_, ⟨hok, fun f hf k hfk => ?_⟩, ⟨?_, ?_⟩, nofun⟩
    · simp [exec, hx]
    · obtain ⟨f, hmem', rfl⟩ := List.mem_map.mp hf
      split at hfk
      · cases hfk
      · rename_i hne
        rw [if_neg hne]
        obtain ⟨e', he', rfl, hhdr⟩ := h.handles f hmem' k hfk
        rcases List.mem_cons.mp (hlive.mem_iff.mp he') with rfl | hmem
        · exact absurd (hk ▸ hfk) hne
        · exact ⟨e', hmem, rfl, by rw [hhdr, (hold _ (Disk.Ok.live_mem he')).1]⟩
    · exact h.files_ne_none he hk
    · rw [view, view, h.fs.disk.files_shrink hok.disk hlive hkeep, hk, view_close]

theorem Inv.readAt (h : s.Inv) (m : Nat → Fresh) {i : Nat} {f : Handle} {n pos : Int}
    (hi : s.handles[i]? = some f) (hf : f.Request n pos) :
    ∃ s' r, s.Simulates m (.readAt i n pos) s' r := by
  obtain ⟨hname, h0, h31⟩ := hf
  obtain ⟨e, he, hhdr, hat⟩ := h.handle hi hname
  have hok : f.file.hdr.Ok := hhdr ▸ h.fs.disk.header _ (Disk.Ok.live_mem he)
  have hx := OpenFile.readAt_eq (d := s.fs.disk) hok h0 h31
  refine ⟨s, .bytes _, ?_, h, ⟨rfl, _, _, hat, rfl⟩, nofun⟩
  simp only [exec, hi, hx, ok_bind, pure_eq_ok, hhdr]
  rfl

/-- A `WriteAt` through a handle: the files of the system and all other files
stay. -/
theorem Inv.writeAt (h : s.Inv) (m : Nat → Fresh) {i : Nat} {f : Handle} {src : List Byte}
    {n pos : Int} (hsrc : n ≤ src.length) (hi : s.handles[i]? = some f) (hf : f.Request n pos) :
    ∃ s' r, s.Simulates m (.writeAt i src n pos) s' r := by
  obtain ⟨hname, h0, h31⟩ := hf
  obtain ⟨e, he, hhdr, hat⟩ := h.handle hi hname
  have hd := h.fs.disk
  have hr := Disk.Ok.live_mem he
  have hok : f.file.hdr.Ok := hhdr ▸ hd.header _ hr
  obtain ⟨d', hx, hc, hframe⟩ := OpenFile.writeAt_spec (d := s.fs.disk) hok
    (hhdr ▸ hd.blocks_nodup hr) h0 h31 hsrc rfl (m 0)
  rw [hhdr] at hframe hc
  obtain ⟨hok', hlive, hhead, hfile⟩ := h.fs.write he hframe
  obtain ⟨hne₀, hne₁⟩ := hd.live_ne he
  have hself : d'.fileAt e.sector = Blocks.overwrite (s.fs.disk.fileAt e.sector) pos.toNat
      ((src.take n.toNat).take ((s.fs.disk.fileAt e.sector).length - pos.toNat)) := by
    rw [Disk.fileAt, hhead _ hr]
    exact hc
  refine ⟨{ s with fs := { s.fs with disk := d' } }, .count _, ?_, ⟨hok', fun f' hf' k hk => ?_⟩,
    ⟨e.key, _, _, hat, rfl, rfl, ?_⟩, fun _ _ _ _ _ => ⟨hfile _ (Disk.Ok.directory_mem _) hne₁.symm,
      hfile _ (Disk.Ok.freeMap_mem _) hne₀.symm⟩⟩
  · simp only [exec, hi, hx, ok_bind, pure_eq_ok, hhdr]
    rfl
  · obtain ⟨e', he', hk', hhdr'⟩ := h.handles f' hf' k hk
    exact ⟨e', hlive ▸ he', hk', hhdr'.trans (hhead _ (Disk.Ok.live_mem he')).symm⟩
  · rw [view, view, hd.files_write hok'.disk hlive he hfile, hself]

theorem Inv.mount (h : s.Inv) (m : Nat → Fresh) : ∃ s' r, s.Simulates m .mount s' r := by
  refine ⟨{ s with fs := ⟨s.fs.disk, ⟨s.fs.disk.header freeMapSector, 0⟩,
    ⟨s.fs.disk.header directorySector, 0⟩⟩ }, .mounted, ?_, ⟨⟨h.fs.disk, rfl, rfl⟩, h.handles⟩, rfl, nofun⟩
  simp [exec, FileSystem.mount_eq]

/-- One step. -/
theorem Inv.simulates (h : s.Inv) (m : Nat → Fresh) {op : FileOp} (hop : s.Proper op) :
    ∃ s' r, s.Simulates m op s' r := by
  cases op with
  | create name size => exact h.create m name hop.1 hop.2
  | openFile name => exact h.openFile m name
  | remove name => exact h.remove m name
  | readAt i n pos =>
    obtain ⟨f, hi, hf⟩ := hop
    exact h.readAt m hi hf
  | writeAt i src n pos =>
    obtain ⟨hsrc, f, hi, hf⟩ := hop
    exact h.writeAt m hsrc hi hf
  | mount => exact h.mount m

/-- A formatted disk. -/
theorem inv_init (h : system.init s) : s.Inv ∧ s.view = FileMap.empty := by
  obtain ⟨hh, m, d, hf⟩ := h
  obtain ⟨fs, hf', hok, hlive⟩ := FileSystem.format_ok m d
  obtain rfl : s.fs = fs := Except.ok.inj (hf.symm.trans hf')
  have hfiles : s.fs.disk.files = fun _ => none := funext fun k =>
    Disk.Ok.files_eq_none.mpr fun e he => by simp [hlive] at he
  refine ⟨⟨hok, fun f hf => by simp [hh] at hf⟩, ?_⟩
  simp only [view, hfiles, hh, List.map_nil, FileMap.empty]

theorem Inv.step (h : s.Inv) {a : FileOp × FileResult} {s' : Session} (hs : system.step s a s') :
    s'.Inv ∧ FileMap.Step s.view a s'.view := by
  obtain ⟨op, r⟩ := a
  obtain ⟨hop, m, hx⟩ := hs
  obtain ⟨s₁, r₁, h₁⟩ := h.simulates m hop
  have := h₁.exec
  rw [hx] at this
  cases this
  exact ⟨h₁.inv, h₁.step⟩

theorem reachable_inv (h : system.Reachable s) : s.Inv ∧ FileMap.system.Reachable s.view := by
  refine h.invariant (I := fun s => s.Inv ∧ FileMap.system.Reachable s.view) ?_ ?_
  · intro s hs
    obtain ⟨hinv, hv⟩ := inv_init hs
    exact ⟨hinv, .init hv⟩
  · rintro s a s' ⟨hinv, hv⟩ hs
    obtain ⟨hinv', hstep⟩ := hinv.step hs
    exact ⟨hinv', .step hv hstep⟩

/-- A step of any kind that returns. -/
theorem Inv.any (h : s.Inv) {a : FileOp × FileResult} {s' : Session}
    (hs : anySystem.step s a s') : s'.Inv := by
  obtain ⟨op, r⟩ := a
  obtain ⟨hop, m, hx⟩ := hs
  -- Most operations are proper ones.
  have hproper : s.Proper op → s'.Inv := fun hp => (h.step (a := (op, r)) ⟨hp, m, hx⟩).1
  cases op with
  | create name size =>
    rcases h.create_cases m name size hop with hx' | ⟨-, s₁, f, hx', hinv, -⟩ | ⟨-, hx'⟩
    · rw [hx] at hx'
      cases hx'
      exact h
    · rw [hx] at hx'
      cases hx'
      exact hinv
    · rw [hx] at hx'
      cases hx'
  | openFile name => exact hproper trivial
  | remove name => exact hproper trivial
  | mount => exact hproper trivial
  | readAt i n pos =>
    obtain ⟨f, hi, -⟩ := hop
    simp only [exec, hi] at hx
    obtain ⟨bs, -, hx⟩ := bind_eq_ok.mp hx
    cases hx
    exact h
  | writeAt i src n pos =>
    obtain ⟨hsrc, f, hi, hname⟩ := hop
    simp only [exec, hi] at hx
    obtain ⟨⟨d', k⟩, hw, hx'⟩ := bind_eq_ok.mp hx
    by_cases hc : n ≤ 0 ∨ pos ≥ f.file.hdr.fileLength
    · unfold OpenFile.writeAt at hw
      rw [if_pos hc] at hw
      cases hw
      cases hx'
      exact h
    · obtain ⟨h0, h31⟩ := OpenFile.writeAt_ok (by omega) (by omega) hw
      exact hproper ⟨hsrc, f, hi, hname, h0, .inl h31⟩

theorem any_inv (h : anySystem.Reachable s) : s.Inv := by
  refine h.invariant (I := Inv) ?_ ?_
  · intro s hs
    exact (inv_init hs).1
  · intro s a s' hinv hs
    exact hinv.any hs

/-! ## The finite map -/

theorem finite_files (s : Session) : {k | s.view.files k ≠ none}.Finite := by
  refine (List.finite_toSet (s.fs.disk.live.map DirectoryEntry.key)).subset fun k hk => ?_
  obtain ⟨f, hf⟩ := Option.ne_none_iff_exists'.mp hk
  obtain ⟨e, he, -⟩ := Option.map_eq_some_iff.mp (show s.fs.disk.files k = some f from hf)
  exact List.mem_map.mpr ⟨e, List.mem_of_find?_eq_some he, by simpa using List.find?_some he⟩

/-- The file system refines a finite map: its state represents one that is
reached by the same operations with the same results, every operation returns,
and `WriteAt` changes neither the directory nor the free map. -/
theorem reachable_refines (h : system.Reachable s) :
    FileMap.system.Reachable s.view ∧ {k | s.view.files k ≠ none}.Finite ∧
      ∀ m op, s.Proper op → ∃ s' r, s.exec m op = .ok (s', r) ∧
        FileMap.Step s.view (op, r) s'.view ∧
        ∀ i src n pos, op = .writeAt i src n pos →
          s'.fs.disk.fileAt directorySector = s.fs.disk.fileAt directorySector ∧
          s'.fs.disk.fileAt freeMapSector = s.fs.disk.fileAt freeMapSector := by
  obtain ⟨hinv, hv⟩ := reachable_inv h
  refine ⟨hv, finite_files s, fun m op hop => ?_⟩
  obtain ⟨s', r, hs⟩ := hinv.simulates m hop
  exact ⟨s', r, hs.exec, hs.step, hs.frame⟩

/-! ## A run -/

instance (f : Handle) (numBytes position : Int) : Decidable (f.Request numBytes position) :=
  inferInstanceAs (Decidable (_ ∧ _))

instance (s : Session) (op : FileOp) : Decidable (s.Proper op) :=
  match op with
  | .create _ _ => inferInstanceAs (Decidable (_ ∧ _))
  | .openFile _ | .remove _ | .mount => inferInstanceAs (Decidable True)
  | .readAt h n pos =>
    decidable_of_iff ((s.handles[h]?).any (·.Request n pos) = true)
      (by simp [Proper, Option.any_eq_true])
  | .writeAt h src n pos =>
    decidable_of_iff (n ≤ src.length ∧ (s.handles[h]?).any (·.Request n pos) = true)
      (by simp [Proper, Option.any_eq_true])

theorem eq_ok_of_toOption {α : Type} {x : Except Abort α} {a : α} (h : x.toOption = some a) :
    x = .ok a := by
  cases x with
  | error e => cases h
  | ok b => exact congrArg Except.ok (Option.some.inj h)

/-- A step that is refused where the operation is not a proper one. -/
def next (m : Nat → Fresh) (s : Session) (op : FileOp) : Option Session :=
  if s.Proper op then (s.exec m op).toOption.map Prod.fst else none

theorem reachable_foldlM {ops : List FileOp} {s' : Session} (h : system.Reachable s)
    (hr : ops.foldlM (next m) s = some s') : system.Reachable s' := by
  induction ops generalizing s with
  | nil =>
    simp only [List.foldlM_nil, pure, Option.some.injEq] at hr
    exact hr ▸ h
  | cons op ops ih =>
    rw [List.foldlM_cons] at hr
    obtain ⟨s₁, h₁, hr⟩ := Option.bind_eq_some_iff.mp hr
    unfold next at h₁
    split at h₁
    · rename_i hop
      obtain ⟨⟨_, r⟩, hx, rfl⟩ := Option.map_eq_some_iff.mp h₁
      exact ih (.step (a := (op, r)) h ⟨hop, m, eq_ok_of_toOption hx⟩) hr
    · cases h₁

/-- A program makes a file of two sectors and writes three bytes across their
border. -/
def sample : Option Session := do
  let name : Name := ⟨[97], by decide⟩
  let fs ← (FileSystem.format (fun _ _ => 0) fun _ _ => 0).toOption
  [.create name 200, .openFile name, .writeAt 0 [7, 8, 9] 3 126].foldlM (next fun _ _ => 0) ⟨fs, []⟩

theorem sample_eq : sample.any (fun s => (s.fs.disk.files [97]).any fun f =>
    (f.drop 125).take 5 = [0, 7, 8, 9, 0]) = true := by
  decide +kernel

theorem exists_sample : ∃ s f, system.Reachable s ∧ s.view.files [97] = some f ∧
    (f.drop 125).take 5 = [0, 7, 8, 9, 0] := by
  obtain ⟨s, hs, hp⟩ := (Option.any_eq_true _ _).mp sample_eq
  obtain ⟨f, hf, hp⟩ := (Option.any_eq_true _ _).mp hp
  unfold sample at hs
  obtain ⟨fs, hfs, hr⟩ := Option.bind_eq_some_iff.mp hs
  have h₀ : system.Reachable ⟨fs, []⟩ := .init ⟨rfl, _, _, eq_ok_of_toOption hfs⟩
  exact ⟨s, f, reachable_foldlM h₀ hr, hf, of_decide_eq_true hp⟩

theorem reachable_refines_sample : ∃ s, system.Reachable s ∧ s.view.files [97] ≠ none ∧
    ∃ s' r, s.exec (fun _ _ => 0) .mount = .ok (s', r) ∧ FileMap.Step s.view (.mount, r) s'.view := by
  obtain ⟨s, f, hr, hf, -⟩ := exists_sample
  obtain ⟨-, -, h⟩ := reachable_refines hr
  obtain ⟨s', r, hx, hs, -⟩ := h (fun _ _ => 0) .mount trivial
  exact ⟨s, hr, (by rw [hf]; nofun), s', r, hx, hs⟩

/-! ## The sectors -/

/-- Sector accounting: each sector in use is marked once, and no assertion of
an operation fails. -/
theorem reachable_accounted (h : system.Reachable s) :
    s.fs.disk.Accounted ∧ ∀ m op, s.Proper op → ∃ r, s.exec m op = .ok r := by
  obtain ⟨hinv, -⟩ := reachable_inv h
  refine ⟨hinv.fs.disk.accounted, fun m op hop => ?_⟩
  obtain ⟨s', r, hs⟩ := hinv.simulates m hop
  exact ⟨_, hs.exec⟩

theorem reachable_accounted_sample : ∃ s, system.Reachable s ∧ s.view.files [97] ≠ none ∧
    s.fs.disk.Accounted := by
  obtain ⟨s, f, hr, hf, -⟩ := exists_sample
  exact ⟨s, hr, (by rw [hf]; nofun), (reachable_accounted hr).1⟩

end Session

end Nachos
