import Mathlib.Algebra.Order.BigOperators.Group.List
import Mathlib.Algebra.Group.Action.Defs
import Mathlib.Data.Set.Card
import Nachos.Proof.Filesys.Create

/-!
# The capacity of the file system

A file takes a sector for its header and at most `NumDirect` for its data, and
the directory has `NumDirEntries` entries: whatever was created and removed
before, there are free sectors as long as there is a free entry. `Create` of a
file within `MaxFileSize` fails only for a name that is there, or for the number
of the files (`reachable_creates`).
-/

namespace Nachos

/-- There can be one more file, with this name. -/
def Vacant (files : List Byte → Option (List Byte)) (k : List Byte) : Prop :=
  files k = none ∧ {k | files k ≠ none}.ncard < numDirEntries

theorem FileHeader.Ok.length_sectors {h : FileHeader} (hok : h.Ok) : h.sectors.length ≤ numDirect := by
  rw [FileHeader.sectors, List.length_take, hok.length]
  exact Nat.min_le_right _ _

namespace Disk.Ok

variable {d : Disk} {name : Name} {size : Int}

/-- The files there are, counted by their entries. -/
theorem ncard_files (h : d.Ok) : {k | d.files k ≠ none}.ncard = d.live.length := by
  have hset : {k | d.files k ≠ none} =
      ((d.live.map DirectoryEntry.key).toFinset : Set (List Byte)) := by
    ext k
    rw [Set.mem_ofPred_eq, Ne, files_eq_none, List.coe_toFinset]
    simp only [Set.mem_ofPred_eq, List.mem_map, not_forall, not_not, exists_prop]
  rw [hset, Set.ncard_coe_finset, List.toFinset_card_of_nodup h.keys, List.length_map]

theorem exists_free_iff (d : Disk) :
    d.live.length < numDirEntries ↔ ¬ ∀ e ∈ d.table, e.inUse = true := by
  rw [← length_table d, live, List.length_filter_lt_length_iff_exists]
  simp only [not_forall, exists_prop]

/-- No file takes more than its header and `NumDirect` sectors. -/
theorem length_allocated_le (h : d.Ok) :
    d.allocated.length ≤ d.roots.length * (numDirect + 1) := by
  have hle : ∀ n ∈ d.roots.map fun r => (d.sectorsAt r).length, n ≤ numDirect + 1 := by
    intro n hn
    obtain ⟨r, hr, rfl⟩ := List.mem_map.mp hn
    rw [sectorsAt, List.length_cons]
    exact Nat.succ_le_succ (h.header r hr).length_sectors
  have hsum := List.sum_le_card_nsmul _ _ hle
  rw [List.length_map, smul_eq_mul] at hsum
  rw [(allocated_perm d).length_eq, List.length_flatMap]
  exact hsum

/-- While there is a free entry, there is space for the largest file. -/
theorem lt_card_free (h : d.Ok) (hlive : d.live.length < numDirEntries) :
    numDirect < d.freeMap.free.card := by
  have hroots : d.roots.length = d.live.length + 2 := by
    rw [roots, List.length_cons, List.length_cons, List.length_map]
  have hle : d.roots.length ≤ numDirEntries + 1 := by omega
  have hall : d.allocated.length ≤ (numDirEntries + 1) * (numDirect + 1) :=
    h.length_allocated_le.trans (Nat.mul_le_mul_right _ hle)
  have hroom : (numDirEntries + 1) * (numDirect + 1) + numDirect < numSectors := by decide
  rw [h.card_free]
  omega

/-- Of the four cases of `Refuses` there are two: sectors never lack. -/
theorem refuses_iff (h : d.Ok) (hmax : size ≤ maxFileSize) :
    d.Refuses name size ↔ ¬ Vacant d.files name.key := by
  unfold Refuses Vacant
  rw [h.ncard_files, exists_free_iff, not_and_or, not_not]
  constructor
  · rintro (hc | hc | hc | hc)
    · exact .inl hc
    · refine .inr (by_contra fun hfree => ?_)
      have := h.lt_card_free ((exists_free_iff d).mpr hfree)
      rw [hc] at this
      cases this
    · exact .inr hc
    · refine .inr (by_contra fun hfree => ?_)
      have := h.lt_card_free ((exists_free_iff d).mpr hfree)
      have := FileHeader.divRoundUp_le (n := size.toNat) (by omega)
      omega
  · rintro (hc | hc)
    · exact .inl hc
    · exact .inr (.inr (.inl hc))

/-- A disk without files has a place for each. -/
theorem vacant_of_live_nil (h : d.Ok) (hlive : d.live = []) (k : List Byte) : Vacant d.files k := by
  constructor
  · refine files_eq_none.mpr fun e he => ?_
    rw [hlive] at he
    cases he
  · rw [h.ncard_files, hlive]
    decide

end Disk.Ok

namespace Session

variable {s : Session}

/-- In each state that a program reaches, `Create` of a file within the limit returns
`TRUE` if and only if there are less than `NumDirEntries` files and none has the name:
no run of creations and removals uses the disk up. -/
theorem reachable_creates (h : anySystem.Reachable s) (m : Nat → Fresh) (name : Name) {size : Int}
    (hsize : -2 ^ 31 ≤ size ∧ size ≤ maxFileSize) : ∃ fs' ok,
    s.fs.create m name size = .ok (fs', ok) ∧ (ok = true ↔ Vacant s.view.files name.key) := by
  have hok := (any_inv h).fs
  have hint : IsInt size := by
    have h31 : maxFileSize < 2 ^ 31 := by decide
    unfold IsInt
    omega
  have hiff : s.fs.disk.Refuses name size ↔ ¬ Vacant s.view.files name.key :=
    hok.disk.refuses_iff hsize.2
  rcases hok.create_cases m name size hint with
    ⟨hno, hx⟩ | ⟨hno, ⟨-, d', e, xs, hx, -⟩ | ⟨hlt, -⟩⟩
  · exact ⟨_, false, hx, iff_of_false Bool.false_ne_true (hiff.mp hno)⟩
  · exact ⟨_, true, hx, iff_of_true rfl (not_not.mp fun hc => hno (hiff.mpr hc))⟩
  · omega

/-- There is no space for a second file of a name, but again for the largest file when the
first one has been removed. -/
theorem reachable_creates_again : ∃ s s' fs fs', anySystem.Reachable s ∧
    s.fs.create (fun _ _ => 0) ⟨[97], by decide⟩ 3840 = .ok (fs, false) ∧
    anySystem.step s (.remove ⟨[97], by decide⟩, .success true) s' ∧
    s'.fs.create (fun _ _ => 0) ⟨[97], by decide⟩ 3840 = .ok (fs', true) := by
  obtain ⟨s, e, hs, hkey, hlive⟩ := @exists_oneFile 3840 (by decide)
  have hok := (any_inv hs).fs
  have hfile : s.fs.disk.files [97] ≠ none := fun hc =>
    Disk.Ok.files_eq_none.mp hc e (by simp [hlive]) hkey
  obtain ⟨fs, ok, hx, hiff⟩ := @reachable_creates s hs (fun _ _ => 0) ⟨[97], by decide⟩ 3840
    (by decide)
  obtain rfl : ok = false := by
    by_contra hne
    exact hfile (hiff.mp (by simpa using hne)).1
  rcases hok.remove_cases (fun _ _ => 0) ⟨[97], by decide⟩ with
    ⟨-, hno⟩ | ⟨d', e', hr, -, -, hperm, -⟩
  · exact absurd hno hfile
  obtain ⟨s', hexec, hdisk⟩ : ∃ s', s.exec (fun _ _ => 0) (.remove ⟨[97], by decide⟩) =
      .ok (s', .success true) ∧ s'.fs.disk = d' := by
    simp only [exec]
    rw [hr]
    exact ⟨_, rfl, rfl⟩
  have hnil : s'.fs.disk.live = [] := by
    rw [hlive] at hperm
    rw [hdisk]
    exact (List.cons.inj (List.singleton_perm.mp hperm)).2.symm
  have hstep : anySystem.step s (.remove ⟨[97], by decide⟩, .success true) s' :=
    ⟨trivial, fun _ _ => 0, hexec⟩
  have hs' := hs.step hstep
  obtain ⟨fs', ok', hx', hiff'⟩ := @reachable_creates s' hs' (fun _ _ => 0) ⟨[97], by decide⟩ 3840
    (by decide)
  obtain rfl := hiff'.mpr ((any_inv hs').fs.disk.vacant_of_live_nil hnil _)
  exact ⟨s, s', fs, fs', hs, hx, hstep, hx'⟩

end Session

end Nachos
