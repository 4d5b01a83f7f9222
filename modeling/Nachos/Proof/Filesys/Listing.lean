import Nachos.Proof.Filesys.Create

/-!
# The listing of the directory

`FileSystem::List` prints a line for each file there is (`reachable_list`).
`strncpy` puts no 0 behind a name of `FileNameMaxLen` bytes or more: `printf`
reads on behind those, and the line may be a longer one.
-/

namespace Nachos

/-- The line of a name that has the key `k`. -/
def Line (k line : List Byte) : Prop := k <+: line ∧ (k.length < fileNameMaxLen → line = k)

/-- What `printf` reads from a name on. -/
theorem DirectoryEntry.Ok.takeWhile_name {e : DirectoryEntry} (h : e.Ok) (bs : List Byte) :
    Line e.key ((e.name ++ bs).takeWhile (· ≠ 0)) := by
  have hlen : (e.name.take fileNameMaxLen).length = fileNameMaxLen := by
    rw [List.length_take, h.name]
    omega
  rw [← List.take_append_drop fileNameMaxLen e.name, List.append_assoc, List.takeWhile_append, hlen]
  unfold Line key
  split
  · -- There is no 0 in the part that counts.
    rename_i hall
    have hself := List.takeWhile_prefix (l := e.name.take fileNameMaxLen) (· ≠ (0 : Byte))
    rw [hself.eq_of_length (hall.trans hlen.symm)]
    refine ⟨List.prefix_append _ _, fun hlt => ?_⟩
    omega
  · exact ⟨List.prefix_rfl, fun _ => rfl⟩

theorem DirectoryEntry.Ok.zero_mem_name {e : DirectoryEntry} (h : e.Ok)
    (hk : e.key.length < fileNameMaxLen) : (0 : Byte) ∈ e.name := by
  by_contra hc
  have hself : e.key = e.name.take fileNameMaxLen := by
    apply List.takeWhile_eq_self_iff.mpr
    intro c hm
    have hne : c ≠ 0 := fun h0 => hc (h0 ▸ List.mem_of_mem_take hm)
    simpa using hne
  rw [hself, List.length_take, h.name] at hk
  omega

namespace Directory

variable {t : Directory} {e : DirectoryEntry}

/-- The memory from the name of an entry on. -/
theorem drop_encodeAll (h : e.Ok) (t : Directory) :
    (dirEntry.encodeAll (e :: t)).drop 8 = e.name ++ (e.pad₂ ++ dirEntry.encodeAll t) := by
  have hint := int_lawful.length _ h.sector
  have hlen : ((if e.inUse then (1 : Byte) else 0) :: e.pad₁ ++ int.encode e.sector).length = 8 := by
    simp only [List.length_append, List.length_cons, h.pad₁, hint]
    rfl
  simp only [Framework.Codec.encodeAll, List.flatMap_cons]
  rw [show dirEntry.encode e = (if e.inUse then (1 : Byte) else 0) :: e.pad₁ ++ int.encode e.sector ++
    e.name ++ e.pad₂ from rfl]
  rw [List.append_assoc, List.append_assoc, List.drop_left' hlen]

/-- The lines that are printed are those of the entries in use. -/
theorem list_lines (ht : ∀ e ∈ t, e.Ok) {lines : List (List Byte)} (h : t.list = .ok lines) :
    List.Forall₂ Line ((t.filter DirectoryEntry.inUse).map DirectoryEntry.key) lines := by
  induction t generalizing lines with
  | nil =>
    obtain rfl := Except.ok.inj h
    exact .nil
  | cons e t ih =>
    have he := ht e List.mem_cons_self
    have ht' : ∀ e ∈ t, e.Ok := fun e he => ht e (List.mem_cons_of_mem _ he)
    unfold list at h
    by_cases hu : e.inUse = true
    · rw [if_pos hu, drop_encodeAll he] at h
      obtain ⟨line, hline, h⟩ := bind_eq_ok.mp h
      obtain ⟨rest, hrest, h⟩ := bind_eq_ok.mp h
      obtain rfl := Except.ok.inj h
      rw [List.filter_cons_of_pos hu, List.map_cons]
      refine .cons ?_ (ih ht' hrest)
      unfold cString at hline
      split at hline
      · obtain rfl := Except.ok.inj hline
        exact he.takeWhile_name _
      · cases hline
    · rw [if_neg hu] at h
      rw [List.filter_cons_of_neg hu]
      exact ih ht' h

/-- No name fills its field. -/
theorem list_eq (ht : ∀ e ∈ t, e.Ok)
    (hk : ∀ e ∈ t.filter DirectoryEntry.inUse, e.key.length < fileNameMaxLen) :
    t.list = .ok ((t.filter DirectoryEntry.inUse).map DirectoryEntry.key) := by
  induction t with
  | nil => rfl
  | cons e t ih =>
    have he := ht e List.mem_cons_self
    have ih := ih fun e he => ht e (List.mem_cons_of_mem _ he)
    unfold list
    by_cases hu : e.inUse = true
    · rw [List.filter_cons_of_pos hu] at hk ⊢
      have hshort := hk e List.mem_cons_self
      have hzero : (0 : Byte) ∈ e.name ++ (e.pad₂ ++ dirEntry.encodeAll t) :=
        List.mem_append_left _ (he.zero_mem_name hshort)
      rw [if_pos hu, drop_encodeAll he, cString, if_pos hzero, (he.takeWhile_name _).2 hshort,
        ih fun e he => hk e (List.mem_cons_of_mem _ he)]
      rfl
    · rw [List.filter_cons_of_neg hu] at hk ⊢
      rw [if_neg hu]
      exact ih hk

end Directory

/-- `List` prints the files there are. -/
theorem FileSystem.Ok.list_files {fs : FileSystem} (h : fs.Ok) (m : Nat → Fresh) :
    ∃ keys : List (List Byte), keys.Nodup ∧ (∀ k, k ∈ keys ↔ fs.disk.files k ≠ none) ∧
      (∀ lines, fs.list m = .ok lines → List.Forall₂ Line keys lines) ∧
      ((∀ k ∈ keys, k.length < fileNameMaxLen) → fs.list m = .ok keys) := by
  have ht := h.disk.table_ok
  have hlist : fs.list m = fs.disk.table.list := by
    unfold FileSystem.list
    rw [h.fetchFrom_eq]
    rfl
  refine ⟨fs.disk.live.map DirectoryEntry.key, h.disk.keys, fun k => ?_, fun lines hl => ?_,
    fun hshort => ?_⟩
  · rw [Ne, Disk.Ok.files_eq_none]
    simp only [List.mem_map, not_forall, not_not, exists_prop]
  · rw [hlist] at hl
    exact Directory.list_lines ht hl
  · rw [hlist]
    apply Directory.list_eq ht
    intro e he
    exact hshort _ (List.mem_map_of_mem he)

namespace Session

variable {s : Session}

/-- In each state that a program reaches, `List` prints the files there are,
each in one line: the name itself if it is shorter than `FileNameMaxLen`. -/
theorem reachable_list (h : anySystem.Reachable s) (m : Nat → Fresh) :
    ∃ keys : List (List Byte), keys.Nodup ∧ (∀ k, k ∈ keys ↔ s.view.files k ≠ none) ∧
      (∀ lines, s.fs.list m = .ok lines → List.Forall₂ (fun k line => k <+: line ∧
        (k.length < fileNameMaxLen → line = k)) keys lines) ∧
      ((∀ k ∈ keys, k.length < fileNameMaxLen) → s.fs.list m = .ok keys) :=
  (any_inv h).fs.list_files m

/-- A disk with one file. -/
theorem reachable_list_sample : ∃ s, anySystem.Reachable s ∧ s.view.files [97] ≠ none ∧
    s.fs.list (fun _ _ => 0) = .ok [[97]] := by
  obtain ⟨s, e, hr, hkey, hlive⟩ := @exists_oneFile 200 (by decide)
  have hfiles : ∀ k, s.view.files k ≠ none ↔ k = [97] := by
    intro k
    rw [show s.view.files = s.fs.disk.files from rfl, Ne, Disk.Ok.files_eq_none, ← hkey]
    simp [hlive, eq_comm]
  obtain ⟨keys, hnd, hmem, -, hlist⟩ := reachable_list hr fun _ _ => 0
  have hperm : keys.Perm [[97]] := by
    refine (List.perm_ext_iff_of_nodup hnd (List.nodup_singleton _)).mpr fun k => ?_
    rw [hmem, List.mem_singleton]
    exact hfiles k
  obtain rfl := List.perm_singleton.mp hperm
  refine ⟨s, hr, (hfiles _).mpr rfl, hlist ?_⟩
  decide

end Session

end Nachos
