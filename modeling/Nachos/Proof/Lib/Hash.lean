import Nachos.Framework.Buckets
import Nachos.Framework.Simulation
import Nachos.Spec.HashMap

/-!
# Hash tables

A table is in order (`Placed`) if each item is in the bucket of its key and no
two have the same key. `Append` adds an item to such a table, `ReHash` moves
all items to a larger one, and `Find` finds the item with a key; so the table
does what the finite map does (`refines_map`). `HashIterator.run_eq` says that
an iterator goes through the items that are left.
-/

namespace Nachos

open Framework

namespace HashTable

variable {K T : Type} {getKey : T → K} {hash : K → BitVec 32} {t : HashTable T}

/-- All items, bucket by bucket. -/
def items (t : HashTable T) : List T := (t.buckets.map Bucket.items).flatten

/-- Each item is in the bucket of its key, and no two have the same key. -/
structure Placed (getKey : T → K) (hash : K → BitVec 32) (t : HashTable T) : Prop where
  length : t.buckets.length = t.numBuckets
  pos : 0 < t.numBuckets
  counts : ∀ b ∈ t.buckets, b.numInList = b.items.length
  place : Buckets.Placed (fun x => (hash (getKey x)).toNat % t.numBuckets) (t.buckets.map Bucket.items)
  keys : (t.items.map getKey).Nodup

theorem hashValue_eq (h : Placed getKey hash t) (key : K) :
    t.hashValue hash key = .ok ((hash key).toNat % t.numBuckets) := by
  have hpos := h.pos
  unfold hashValue
  rw [defined_of (by omega), ok_bind]
  simp only [assert_of (Nat.mod_lt (hash key).toNat hpos), ok_bind]
  rfl

theorem bucket_eq (h : Placed getKey hash t) {i : Nat} (hi : i < t.numBuckets) :
    ∃ b, t.buckets[i]? = some b ∧ t.bucket i = .ok b := by
  have hget := List.getElem?_eq_getElem (h.length ▸ hi)
  refine ⟨_, hget, ?_⟩
  unfold bucket
  rw [hget]

/-- The bucket of a key has the items with this key. -/
theorem mem_bucket (h : Placed getKey hash t) {x : T} {b : Bucket T}
    (hb : t.buckets[(hash (getKey x)).toNat % t.numBuckets]? = some b) :
    x ∈ t.items ↔ x ∈ b.items :=
  h.place.mem_iff (by rw [List.getElem?_map, hb]; rfl)

/-- One bucket is another one, with one item more or one less. -/
theorem Placed.set (h : Placed getKey hash t) {i : Nat} {b' : Bucket T}
    (hcount : b'.numInList = b'.items.length)
    (hplace : ∀ x ∈ b'.items, (hash (getKey x)).toNat % t.numBuckets = i) (n : Nat)
    (hkeys : ((({ t with buckets := t.buckets.set i b', numItems := n } : HashTable T)).items.map
      getKey).Nodup) :
    Placed getKey hash { t with buckets := t.buckets.set i b', numItems := n } where
  length := by rw [List.length_set, h.length]
  pos := h.pos
  counts b hb := by
    rcases List.mem_or_eq_of_mem_set hb with hb | rfl
    · exact h.counts b hb
    · exact hcount
  place := by
    rw [List.map_set]
    exact h.place.set hplace
  keys := hkeys

section
variable [DecidableEq T]

/-- `Append` of an item with a new key. -/
theorem append_eq (h : Placed getKey hash t) {x : T} (hx : getKey x ∉ t.items.map getKey) :
    ∃ t', t.append getKey hash x = .ok t' ∧ Placed getKey hash t' ∧ t'.items.Perm (x :: t.items) ∧
      t'.numBuckets = t.numBuckets ∧ t'.numItems = t.numItems := by
  obtain ⟨i, hi⟩ : ∃ i, i = (hash (getKey x)).toNat % t.numBuckets := ⟨_, rfl⟩
  obtain ⟨b, hget, hb⟩ := bucket_eq h (hi ▸ Nat.mod_lt _ h.pos)
  have hmem := mem_bucket h (hi ▸ hget)
  have hnot : x ∉ b.items := fun hc => hx (List.mem_map_of_mem (hmem.mpr hc))
  obtain ⟨b', hb'⟩ : ∃ b' : Bucket T, b' = ⟨b.items ++ [x], b.numInList + 1⟩ := ⟨_, rfl⟩
  have happ : b.append x = .ok b' := by
    unfold Bucket.append
    rw [NList.append_eq_ok.mpr ⟨hnot, rfl⟩, hb']
    rfl
  have hperm : ({ t with buckets := t.buckets.set i b' } : HashTable T).items.Perm (x :: t.items) := by
    rw [items, List.map_set]
    refine Buckets.flatten_set_perm (by rw [List.getElem?_map, hget]; rfl) ?_
    rw [hb']
    exact List.perm_append_singleton x b.items
  refine ⟨{ t with buckets := t.buckets.set i b' }, ?_, h.set ?_ ?_ _ ?_, hperm, rfl, rfl⟩
  · unfold append
    rw [hashValue_eq h, ok_bind, ← hi, hb, ok_bind, happ]
    rfl
  · rw [hb', List.length_append, h.counts b (List.mem_of_getElem? hget)]
    rfl
  · intro y hy
    rw [hb'] at hy
    rcases List.mem_append.mp hy with hy | hy
    · exact h.place i b.items (by rw [List.getElem?_map, hget]; rfl) y hy
    · rw [List.mem_singleton.mp hy, hi]
  · exact (hperm.map getKey).nodup_iff.mpr (List.nodup_cons.mpr ⟨hx, h.keys⟩)

end

section
variable [DecidableEq K]

/-- `Find` finds the item with the key. -/
theorem find_cases (h : Placed getKey hash t) (key : K) :
    (∃ x ∈ t.items, getKey x = key ∧ t.find getKey hash key = .ok (some x)) ∨
    ((∀ x ∈ t.items, getKey x ≠ key) ∧ t.find getKey hash key = .ok none) := by
  obtain ⟨b, hget, hb⟩ := bucket_eq h (Nat.mod_lt (hash key).toNat h.pos)
  have hfind : t.find getKey hash key = .ok (b.items.find? fun item => key = getKey item) := by
    unfold find findInBucket
    rw [hashValue_eq h, ok_bind, hb]
    rfl
  rw [hfind]
  cases hf : b.items.find? fun item => key = getKey item with
  | none =>
    refine .inr ⟨fun x hx hk => ?_, rfl⟩
    subst hk
    have := List.find?_eq_none.mp hf x ((mem_bucket h hget).mp hx)
    simp at this
  | some x =>
    have hk : key = getKey x := by simpa using List.find?_some hf
    subst hk
    exact .inl ⟨x, (mem_bucket h hget).mpr (List.mem_of_find?_eq_some hf), rfl, rfl⟩

theorem isInTable_eq (h : Placed getKey hash t) (key : K) {r : Bool}
    (hr : r = true ↔ ∃ x ∈ t.items, getKey x = key) : t.isInTable getKey hash key = .ok r := by
  unfold isInTable
  rcases find_cases h key with ⟨x, hx, hk, hf⟩ | ⟨hno, hf⟩
  · rw [hf, hr.mpr ⟨x, hx, hk⟩]
    rfl
  · have : r = false := by
      rw [← Bool.not_eq_true, hr]
      rintro ⟨x, hx, hk⟩
      exact hno x hx hk
    rw [hf, this]
    rfl

end

/-! ## SanityCheck -/

theorem checkItems_eq (h : Placed getKey hash t) {i : Nat} {xs : List T}
    (hxs : ∀ x ∈ xs, (hash (getKey x)).toNat % t.numBuckets = i) :
    t.checkItems getKey hash i xs = .ok () := by
  induction xs with
  | nil => rfl
  | cons x xs ih =>
    rw [checkItems, hashValue_eq h, ok_bind, assert_of (hxs x List.mem_cons_self).symm, ok_bind,
      ih fun y hy => hxs y (List.mem_cons_of_mem x hy)]

theorem checkBuckets_eq (h : Placed getKey hash t) {i c n : Nat} (hn : i + n = t.numBuckets) :
    t.checkBuckets getKey hash i c n =
      .ok (c + ((t.buckets.drop i).map Bucket.items).flatten.length) := by
  induction n generalizing i c with
  | zero =>
    rw [List.drop_of_length_le (by rw [h.length]; omega)]
    rfl
  | succ n ih =>
    obtain ⟨b, hget, hb⟩ := bucket_eq h (i := i) (by omega)
    have hcount := h.counts b (List.mem_of_getElem? hget)
    obtain ⟨hlt, hi⟩ := List.getElem?_eq_some_iff.mp hget
    rw [checkBuckets, hb, ok_bind, Bucket.sanityCheck, assert_of hcount, ok_bind,
      checkItems_eq h (h.place i b.items (by rw [List.getElem?_map, hget]; rfl)), ok_bind,
      ih (by omega), List.drop_eq_getElem_cons hlt, hi, List.map_cons, List.flatten_cons,
      List.length_append, hcount, Nat.add_assoc]

theorem sanityCheck_eq (h : Placed getKey hash t) (hn : t.numItems = t.items.length) :
    t.sanityCheck getKey hash = .ok () := by
  unfold sanityCheck
  rw [checkBuckets_eq h (Nat.zero_add _), ok_bind, List.drop_zero, Nat.zero_add]
  exact assert_of hn

/-! ## ReHash -/

theorem items_initBuckets (t : HashTable T) (sz : Nat) : (t.initBuckets sz).items = [] := by
  simp [items, initBuckets, Bucket.new]

theorem placed_initBuckets (getKey : T → K) (hash : K → BitVec 32) (t : HashTable T) {sz : Nat}
    (hsz : 0 < sz) : Placed getKey hash (t.initBuckets sz) where
  length := List.length_replicate
  pos := hsz
  counts b hb := by
    obtain rfl := List.eq_of_mem_replicate hb
    rfl
  place := by
    simp only [initBuckets, List.map_replicate]
    exact Buckets.placed_replicate _ _
  keys := by
    rw [items_initBuckets]
    exact List.nodup_nil

section
variable [DecidableEq T]

/-- The items of a bucket go to the table. -/
theorem moveItems_eq (h : Placed getKey hash t) {b : Bucket T} (hcount : b.numInList = b.items.length)
    (hkeys : ((b.items ++ t.items).map getKey).Nodup) : ∃ t',
      t.moveItems getKey hash b b.numInList = .ok t' ∧ Placed getKey hash t' ∧
      t'.items.Perm (b.items ++ t.items) ∧ t'.numBuckets = t.numBuckets ∧ t'.numItems = t.numItems := by
  obtain ⟨xs, n⟩ := b
  simp only at hcount hkeys ⊢
  subst hcount
  induction xs generalizing t with
  | nil => exact ⟨t, rfl, h, .refl _, rfl, rfl⟩
  | cons x xs ih =>
    rw [List.cons_append, List.map_cons, List.nodup_cons, List.map_append, List.mem_append,
      not_or] at hkeys
    obtain ⟨t₁, h₁, hp₁, hitems, hnum, hn⟩ := append_eq h hkeys.1.2
    have hmid : (xs ++ t₁.items).Perm (x :: (xs ++ t.items)) :=
      (hitems.append_left xs).trans List.perm_middle
    obtain ⟨t', h', hp', hitems', hnum', hn'⟩ := ih hp₁ (by
      rw [(hmid.map getKey).nodup_iff, List.map_cons, List.nodup_cons, List.map_append,
        List.mem_append, not_or]
      exact hkeys)
    refine ⟨t', ?_, hp', hitems'.trans hmid, hnum'.trans hnum, hn'.trans hn⟩
    have hfront : Bucket.removeFront ⟨x :: xs, xs.length + 1⟩ = .ok (x, ⟨xs, xs.length⟩) := by
      unfold Bucket.removeFront
      rw [assert_of (by simp [Bucket.isEmpty]), ok_bind]
      rfl
    rw [List.length_cons, moveItems, hfront, ok_bind]
    simp only [h₁, ok_bind, h']

theorem moveBuckets_eq (h : Placed getKey hash t) {oldTable : List (Bucket T)}
    (hcount : ∀ b ∈ oldTable, b.numInList = b.items.length)
    (hkeys : (((oldTable.map Bucket.items).flatten ++ t.items).map getKey).Nodup) : ∃ t',
      t.moveBuckets getKey hash oldTable = .ok t' ∧ Placed getKey hash t' ∧
      t'.items.Perm ((oldTable.map Bucket.items).flatten ++ t.items) ∧
      t'.numBuckets = t.numBuckets ∧ t'.numItems = t.numItems := by
  induction oldTable generalizing t with
  | nil => exact ⟨t, rfl, h, .refl _, rfl, rfl⟩
  | cons b oldTable ih =>
    rw [List.map_cons, List.flatten_cons] at hkeys ⊢
    obtain ⟨hb, hcount⟩ := List.forall_mem_cons.mp hcount
    have hsub : (b.items ++ t.items).Sublist (b.items ++ (oldTable.map Bucket.items).flatten ++ t.items) :=
      (List.sublist_append_left _ _).append_right _
    obtain ⟨t₁, h₁, hp₁, hitems, hnum, hn⟩ := moveItems_eq h hb (hkeys.sublist (hsub.map getKey))
    have hmid : ((oldTable.map Bucket.items).flatten ++ t₁.items).Perm
        (b.items ++ (oldTable.map Bucket.items).flatten ++ t.items) := by
      refine (hitems.append_left _).trans ?_
      rw [← List.append_assoc]
      exact List.perm_append_comm.append_right _
    obtain ⟨t', h', hp', hitems', hnum', hn'⟩ := ih hp₁ hcount ((hmid.map getKey).nodup_iff.mpr hkeys)
    refine ⟨t', ?_, hp', hitems'.trans hmid, hnum'.trans hnum, hn'.trans hn⟩
    rw [moveBuckets, h₁, ok_bind, h']

/-- The larger table has the same items. -/
theorem reHash_eq (h : Placed getKey hash t) (hn : t.numItems = t.items.length) : ∃ t',
    t.reHash getKey hash = .ok t' ∧ Placed getKey hash t' ∧ t'.items.Perm t.items ∧
      t'.numBuckets = t.numBuckets * increaseSizeBy ∧ t'.numItems = t.numItems := by
  have hpos : 0 < t.numBuckets * increaseSizeBy := Nat.mul_pos h.pos (by decide)
  obtain ⟨t', h', hp', hitems, hnum, hnum'⟩ := moveBuckets_eq
    (placed_initBuckets getKey hash t hpos) h.counts (by
      rw [items_initBuckets, List.append_nil]
      exact h.keys)
  rw [items_initBuckets, List.append_nil] at hitems
  have hn' : t'.numItems = t.numItems := hnum'
  have hperm : t'.items.Perm t.items := hitems
  refine ⟨t', ?_, hp', hperm, hnum, hn'⟩
  unfold reHash
  simp only [sanityCheck_eq h hn, ok_bind, h',
    sanityCheck_eq hp' (by rw [hn', hn, hperm.length_eq])]
  rfl

end

/-! ## The finite map -/

/-- The table has the items of the map, in order, and is not too full. -/
structure Represents (getKey : T → K) (hash : K → BitVec 32) (t : HashTable T) (m : K → Option T) :
    Prop where
  placed : Placed getKey hash t
  numItems : t.numItems = t.items.length
  load : t.numItems ≤ resizeRatio * t.numBuckets
  map : ∀ (k : K) (x : T), m k = some x ↔ x ∈ t.items ∧ getKey x = k

variable {m : K → Option T}

theorem Represents.eq_none (h : Represents getKey hash t m) {k : K} :
    m k = none ↔ ∀ x ∈ t.items, getKey x ≠ k := by
  rw [Option.eq_none_iff_forall_ne_some]
  exact forall_congr' fun x => by rw [ne_eq, h.map, not_and]

theorem represents_new (getKey : T → K) (hash : K → BitVec 32) :
    Represents getKey hash (new T) fun _ => none where
  placed := placed_initBuckets getKey hash _ (by decide)
  numItems := rfl
  load := Nat.zero_le _
  map k x := by simp [new, items_initBuckets]

section
variable [DecidableEq K] [DecidableEq T]

omit [DecidableEq K] in
/-- The table before the new item goes to its bucket. -/
theorem Represents.grow (h : Represents getKey hash t m) : ∃ t',
    (if t.numItems / t.numBuckets ≥ resizeRatio then t.reHash getKey hash else pure t) = .ok t' ∧
      Placed getKey hash t' ∧ t'.items.Perm t.items ∧ t'.numItems = t.numItems ∧
      t.numItems + 1 ≤ resizeRatio * t'.numBuckets := by
  have hpos := h.placed.pos
  have hload := h.load
  split
  · obtain ⟨t', hx, hp, hitems, hnum, hn⟩ := reHash_eq h.placed h.numItems
    refine ⟨t', hx, hp, hitems, hn, ?_⟩
    rw [hnum]
    unfold resizeRatio increaseSizeBy at *
    omega
  · rename_i hlt
    refine ⟨t, rfl, h.placed, .refl _, rfl, ?_⟩
    have := (Nat.div_lt_iff_lt_mul hpos).mp (Nat.lt_of_not_le hlt)
    omega

theorem Represents.insert (h : Represents getKey hash t m) {x : T} (hx : m (getKey x) = none) :
    ∃ t', t.insert getKey hash x = .ok t' ∧
      Represents getKey hash t' (Function.update m (getKey x) (some x)) := by
  have hnew := h.eq_none.mp hx
  have hpos := h.placed.pos
  obtain ⟨t₁, hgrow, hp₁, hitems₁, hn₁, hload⟩ := h.grow
  have hnot : getKey x ∉ t₁.items.map getKey := by
    intro hc
    obtain ⟨y, hy, hk⟩ := List.mem_map.mp hc
    exact hnew y (hitems₁.mem_iff.mp hy) hk
  obtain ⟨t₂, happ, hp₂, hitems₂, hnum₂, hn₂⟩ := append_eq hp₁ hnot
  have hitems : t₂.items.Perm (x :: t.items) := hitems₂.trans (hitems₁.cons x)
  have hp : Placed getKey hash { t₂ with numItems := t₂.numItems + 1 } :=
    ⟨hp₂.length, hp₂.pos, hp₂.counts, hp₂.place, hp₂.keys⟩
  refine ⟨{ t₂ with numItems := t₂.numItems + 1 }, ?_, hp, ?_, ?_, fun k y => ?_⟩
  · unfold HashTable.insert
    have hout : t.isInTable getKey hash (getKey x) = .ok false :=
      isInTable_eq h.placed _ (by simpa using hnew)
    have hin : isInTable getKey hash { t₂ with numItems := t₂.numItems + 1 } (getKey x) = .ok true :=
      isInTable_eq hp _ (by simpa using ⟨x, hitems.mem_iff.mpr List.mem_cons_self, rfl⟩)
    simp only [hout, ok_bind, assert_of, defined_of (show t.numBuckets ≠ 0 by omega), hgrow, happ, hin]
    rfl
  · change t₂.numItems + 1 = t₂.items.length
    rw [hn₂, hn₁, hitems.length_eq, List.length_cons, h.numItems]
  · change t₂.numItems + 1 ≤ resizeRatio * t₂.numBuckets
    rw [hn₂, hn₁, hnum₂]
    exact hload
  · change _ ↔ y ∈ t₂.items ∧ _
    rw [hitems.mem_iff, List.mem_cons]
    by_cases hk : k = getKey x
    · subst hk
      rw [Function.update_self, Option.some.injEq]
      constructor
      · rintro rfl
        exact ⟨.inl rfl, rfl⟩
      · rintro ⟨rfl | hy, hky⟩
        · rfl
        · exact absurd hky (hnew y hy)
    · rw [Function.update_of_ne hk, h.map]
      constructor
      · exact fun hy => ⟨.inr hy.1, hy.2⟩
      · rintro ⟨rfl | hy, hky⟩
        · exact absurd hky.symm hk
        · exact ⟨hy, hky⟩

theorem Represents.remove (h : Represents getKey hash t m) {key : K} {x : T} (hx : m key = some x) :
    ∃ t', t.remove getKey hash key = .ok (t', x) ∧
      Represents getKey hash t' (Function.update m key none) := by
  obtain ⟨hmem, rfl⟩ := (h.map key x).mp hx
  have hnd : t.items.Nodup := h.placed.keys.of_map
  obtain ⟨i, hi⟩ : ∃ i, i = (hash (getKey x)).toNat % t.numBuckets := ⟨_, rfl⟩
  obtain ⟨b, hget, hb⟩ := bucket_eq h.placed (hi ▸ Nat.mod_lt _ h.placed.pos)
  have hget' : (t.buckets.map Bucket.items)[i]? = some b.items := by
    rw [List.getElem?_map, hget]
    rfl
  have hxb : x ∈ b.items := (mem_bucket h.placed (hi ▸ hget)).mp hmem
  have hndb : b.items.Nodup := (List.nodup_flatten.mp hnd).1 _ (List.mem_of_getElem? hget')
  obtain ⟨b', hb'⟩ : ∃ b' : Bucket T, b' = ⟨b.items.erase x, b.numInList - 1⟩ := ⟨_, rfl⟩
  have hrem : b.remove x = .ok b' := by
    unfold Bucket.remove
    rw [NList.remove_eq_ok.mpr ⟨hxb, hndb.not_mem_erase, rfl⟩, hb']
    rfl
  obtain ⟨t', ht'⟩ : ∃ t' : HashTable T,
    t' = { t with buckets := t.buckets.set i b', numItems := t.numItems - 1 } := ⟨_, rfl⟩
  have hitems : t.items.Perm (x :: t'.items) := by
    rw [ht', items, items, List.map_set]
    refine Buckets.flatten_perm_set hget' ?_
    rw [hb']
    exact List.perm_cons_erase hxb
  have hkeys := (hitems.map getKey).nodup_iff.mp h.placed.keys
  rw [List.map_cons, List.nodup_cons] at hkeys
  have hp : Placed getKey hash t' := by
    subst ht'
    refine h.placed.set ?_ (fun y hy => ?_) _ hkeys.2
    · rw [hb', List.length_erase_of_mem hxb, h.placed.counts b (List.mem_of_getElem? hget)]
    · rw [hb'] at hy
      exact h.placed.place i b.items hget' y (List.mem_of_mem_erase hy)
  have hout : t'.isInTable getKey hash (getKey x) = .ok false :=
    isInTable_eq hp _ (by simpa using fun y hy hk => hkeys.1 (List.mem_map.mpr ⟨y, hy, hk⟩))
  have hfind : t.findInBucket getKey i (getKey x) = .ok (some x) := by
    rcases find_cases h.placed (getKey x) with ⟨y, hy, hk, hf⟩ | ⟨hno, -⟩
    · have hyx : y = x := List.inj_on_of_nodup_map h.placed.keys hy hmem hk
      unfold find at hf
      rw [hashValue_eq h.placed, ok_bind, ← hi, hyx] at hf
      exact hf
    · exact absurd rfl (hno x hmem)
  have hn : t'.numItems = t'.items.length := by
    have := hitems.length_eq
    rw [List.length_cons] at this
    rw [ht']
    change t.numItems - 1 = _
    rw [h.numItems, this, ht']
    rfl
  refine ⟨t', ?_, hp, hn, ?_, fun k y => ?_⟩
  · unfold HashTable.remove
    rw [hashValue_eq h.placed, ok_bind, ← hi, hfind, ok_bind]
    simp only [hb, ok_bind, hrem]
    rw [← ht', hout]
    rfl
  · have hload := h.load
    rw [ht']
    change t.numItems - 1 ≤ resizeRatio * t.numBuckets
    omega
  · by_cases hk : k = getKey x
    · subst hk
      rw [Function.update_self]
      simp only [reduceCtorEq, false_iff]
      rintro ⟨hy, hky⟩
      exact hkeys.1 (List.mem_map.mpr ⟨y, hy, hky⟩)
    · rw [Function.update_of_ne hk, h.map, hitems.mem_iff, List.mem_cons]
      constructor
      · rintro ⟨rfl | hy, hky⟩
        · exact absurd hky.symm hk
        · exact ⟨hy, hky⟩
      · exact fun hy => ⟨.inr hy.1, hy.2⟩

/-- An operation that the map allows. -/
theorem Represents.exec (h : Represents getKey hash t m) {op : HashOp K T} {m' : K → Option T}
    {r : Option T} (hop : HashMap.step getKey m op = some (m', r)) :
    ∃ t', t.exec getKey hash op = .ok (t', r) ∧ Represents getKey hash t' m' := by
  cases op with
  | insert x =>
    cases hx : m (getKey x) with
    | some y => simp [HashMap.step, hx] at hop
    | none =>
      simp only [HashMap.step, hx, Option.some.injEq, Prod.mk.injEq] at hop
      obtain ⟨rfl, rfl⟩ := hop
      obtain ⟨t', hi, hr⟩ := h.insert hx
      refine ⟨t', ?_, hr⟩
      rw [HashTable.exec, hi]
      rfl
  | remove key =>
    cases hx : m key with
    | none => simp [HashMap.step, hx] at hop
    | some x =>
      simp only [HashMap.step, hx, Option.some.injEq, Prod.mk.injEq] at hop
      obtain ⟨rfl, rfl⟩ := hop
      obtain ⟨t', hi, hr⟩ := h.remove hx
      refine ⟨t', ?_, hr⟩
      rw [HashTable.exec, hi]
      rfl
  | find key =>
    simp only [HashMap.step, Option.some.injEq, Prod.mk.injEq] at hop
    obtain ⟨rfl, rfl⟩ := hop
    refine ⟨t, ?_, h⟩
    rw [HashTable.exec]
    rcases find_cases h.placed key with ⟨x, hx, hk, hf⟩ | ⟨hno, hf⟩
    · rw [hf, (h.map key x).mpr ⟨hx, hk⟩]
      rfl
    · rw [hf, h.eq_none.mpr hno]
      rfl

end

end HashTable

/-! ## Iterators -/

namespace HashIterator

open HashTable

variable {K T : Type} {getKey : T → K} {hash : K → BitVec 32} {t : HashTable T} {it : HashIterator T}

/-- The items from bucket `i` on. -/
def itemsFrom (t : HashTable T) (i : Nat) : List T := ((t.buckets.drop i).map Bucket.items).flatten

/-- The items that the iterator has not passed yet. -/
def left (t : HashTable T) (it : HashIterator T) : List T :=
  it.bucketIter.getD [] ++ itemsFrom t (it.bucket + 1)

/-- The iterator is at an item, or behind all buckets. -/
def Ready (t : HashTable T) (it : HashIterator T) : Prop :=
  it = ⟨t.numBuckets, none⟩ ∨ it.bucket < t.numBuckets ∧ ∃ x xs, it.bucketIter = some (x :: xs)

theorem itemsFrom_end (h : Placed getKey hash t) {i : Nat} (hi : t.numBuckets ≤ i) :
    itemsFrom t i = [] := by
  rw [itemsFrom, List.drop_of_length_le (by rw [h.length]; exact hi)]
  rfl

theorem itemsFrom_succ {i : Nat} {b : Bucket T} (hb : t.buckets[i]? = some b) :
    itemsFrom t i = b.items ++ itemsFrom t (i + 1) := by
  obtain ⟨hlt, hi⟩ := List.getElem?_eq_some_iff.mp hb
  rw [itemsFrom, List.drop_eq_getElem_cons hlt, hi, List.map_cons, List.flatten_cons]
  rfl

/-- The buckets that are passed are empty. -/
theorem findNextFrom_eq (h : Placed getKey hash t) {i n : Nat} (hn : i + n = t.numBuckets) :
    ∃ j, t.findNextFrom i n = .ok j ∧ itemsFrom t j = itemsFrom t i ∧ (j = t.numBuckets ∨
      j < t.numBuckets ∧ ∃ b x xs, t.buckets[j]? = some b ∧ b.items = x :: xs) := by
  induction n generalizing i with
  | zero => exact ⟨i, rfl, rfl, .inl (by omega)⟩
  | succ n ih =>
    obtain ⟨b, hget, hb⟩ := bucket_eq h (i := i) (by omega)
    have hcount := h.counts b (List.mem_of_getElem? hget)
    rw [findNextFrom, hb, ok_bind]
    cases hitems : b.items with
    | nil =>
      obtain ⟨j, hj, hsame, hend⟩ := ih (i := i + 1) (by omega)
      rw [hitems] at hcount
      rw [if_pos (by simpa [Bucket.isEmpty] using hcount), itemsFrom_succ hget, hitems]
      exact ⟨j, hj, hsame, hend⟩
    | cons x xs =>
      rw [hitems] at hcount
      rw [if_neg (by simp [Bucket.isEmpty, hcount])]
      exact ⟨i, rfl, rfl, .inr ⟨by omega, b, x, xs, hget, hitems⟩⟩

/-- The iterator at the next item, from bucket `i` on. -/
theorem seek_eq (h : Placed getKey hash t) {i : Nat} (hi : i ≤ t.numBuckets) :
    ∃ it, (t.findNextFullBucket i >>= ofBucket t) = .ok it ∧ Ready t it ∧ left t it = itemsFrom t i := by
  obtain ⟨j, hj, hsame, hend⟩ := findNextFrom_eq h (i := i) (n := t.numBuckets - i) (by omega)
  unfold findNextFullBucket
  rw [hj, ok_bind, ← hsame]
  unfold ofBucket
  rcases hend with rfl | ⟨hlt, b, x, xs, hget, hitems⟩
  · rw [if_neg (Nat.lt_irrefl _)]
    refine ⟨_, rfl, .inl rfl, ?_⟩
    rw [itemsFrom_end h (Nat.le_refl _), left, itemsFrom_end h (Nat.le_succ _)]
    rfl
  · have hb : t.bucket j = .ok b := by
      unfold HashTable.bucket
      rw [hget]
    rw [if_pos hlt, hb, itemsFrom_succ hget]
    exact ⟨_, rfl, .inr ⟨hlt, x, xs, congrArg some hitems⟩, rfl⟩

/-- `Next` passes one item. -/
theorem next_eq (h : Placed getKey hash t) (hlt : it.bucket < t.numBuckets) {x : T} {xs : List T}
    (hit : it.bucketIter = some (x :: xs)) :
    ∃ it', it.next t = .ok it' ∧ Ready t it' ∧ left t it = x :: left t it' := by
  unfold next
  rw [left, hit]
  cases xs with
  | nil =>
    obtain ⟨it', hx, hready, hleft⟩ := seek_eq h hlt
    exact ⟨it', hx, hready, congrArg (x :: ·) hleft.symm⟩
  | cons y ys => exact ⟨_, rfl, .inr ⟨hlt, y, ys, rfl⟩, rfl⟩

/-- The loop goes through the items that are left. -/
theorem run_eq (h : Placed getKey hash t) {fuel : Nat} (hit : Ready t it)
    (hfuel : (left t it).length < fuel) : run t fuel it = .ok (some (left t it)) := by
  induction fuel generalizing it with
  | zero => omega
  | succ fuel ih =>
    rw [run]
    rcases hit with rfl | ⟨hlt, x, xs, hx⟩
    · rw [if_pos (by simp [isDone]), left, itemsFrom_end h (Nat.le_succ _)]
      rfl
    · have hdone : it.isDone t = false := by
        simpa [isDone] using Nat.ne_of_lt hlt
      have hitem : it.item t = .ok x := by
        unfold item
        rw [assert_of hdone, ok_bind, hx]
        rfl
      obtain ⟨it', hnext, hit', hleft⟩ := next_eq h hlt hx
      rw [hleft, List.length_cons] at hfuel
      rw [hdone, if_neg (by decide), hitem, ok_bind, hnext, ok_bind, ih hit' (by omega), ok_bind, hleft]
      rfl

end HashIterator

namespace HashTable

variable {K T : Type} [DecidableEq K] [DecidableEq T]

/-- A hash table refines a finite map: from the empty table, every list of
operations that the map allows has the same results, and then the items are in
their buckets, the counters are right, and an iterator yields each item once. -/
theorem refines_map (getKey : T → K) (hash : K → BitVec 32) (ops : List (HashOp K T))
    {m : K → Option T} {results : List (Option T)}
    (h : runAll (M := Option) (HashMap.step getKey) (fun _ => none) ops = some (m, results)) :
    ∃ t : HashTable T, runAll (M := Except Abort) (exec getKey hash) (new T) ops = .ok (t, results) ∧
      Represents getKey hash t m ∧ t.sanityCheck getKey hash = .ok () ∧
      ∃ (it : HashIterator T) (xs : List T), HashIterator.new t = .ok it ∧
        (∀ fuel : Nat, xs.length < fuel → HashIterator.run t fuel it = .ok (some xs)) ∧
        xs.Nodup ∧ ∀ x : T, x ∈ xs ↔ m (getKey x) = some x := by
  have hstep : ∀ (t : HashTable T) (m : K → Option T) (op : HashOp K T) (m' : K → Option T)
      (r : Option T), Represents getKey hash t m → HashMap.step getKey m op = some (m', r) →
      ∃ t', t.exec getKey hash op = .ok (t', r) ∧ Represents getKey hash t' m' :=
    fun _ _ _ _ _ hr ha => hr.exec ha
  obtain ⟨t, ht, hr⟩ := runAll_simulates hstep (represents_new getKey hash) h
  obtain ⟨it, hit, hready, hleft⟩ := HashIterator.seek_eq hr.placed (Nat.zero_le _)
  refine ⟨t, ht, hr, sanityCheck_eq hr.placed hr.numItems, it, t.items, hit, fun fuel hfuel => ?_,
    hr.placed.keys.of_map, fun x => ?_⟩
  · have hall : HashIterator.left t it = t.items := hleft
    rw [← hall] at hfuel ⊢
    exact HashIterator.run_eq hr.placed hready hfuel
  · rw [hr.map]
    simp

/-- Fourteen items in two of the four buckets; the thirteenth has the table made larger. -/
def hashOps : List (HashOp Nat Nat) :=
  (List.range 14).map (fun i => .insert (2 * i)) ++ [.find 24, .remove 8, .find 8]

/-- They are all found again but the one that was removed, and an iterator passes them. -/
theorem refines_map_rehashed : ∃ t : HashTable Nat,
    runAll (M := Except Abort) (exec (fun x : Nat => x) (BitVec.ofNat 32)) (new Nat) hashOps =
      .ok (t, List.replicate 14 none ++ [some 24, some 8, none]) ∧ t.numBuckets = 16 ∧
    ∃ (it : HashIterator Nat) (xs : List Nat), HashIterator.new t = .ok it ∧
      (∀ fuel : Nat, xs.length < fuel → HashIterator.run t fuel it = .ok (some xs)) ∧
      xs.Nodup ∧ 24 ∈ xs ∧ 8 ∉ xs := by
  obtain ⟨m, habs, h24, h8⟩ : ∃ m : Nat → Option Nat,
      runAll (M := Option) (HashMap.step fun x : Nat => x) (fun _ => none) hashOps =
        some (m, List.replicate 14 none ++ [some 24, some 8, none]) ∧
      m 24 = some 24 ∧ m 8 = none := by
    refine ⟨_, rfl, ?_, ?_⟩ <;> rfl
  obtain ⟨t, ht, -, -, it, xs, hit, hrun, hnodup, hmem⟩ :=
    refines_map (fun x : Nat => x) (BitVec.ofNat 32) hashOps habs
  have hsize : (runAll (M := Except Abort) (exec (fun x : Nat => x) (BitVec.ofNat 32)) (new Nat)
      hashOps).toOption.all (fun x => x.1.numBuckets = 16) = true := by
    decide +kernel
  rw [ht] at hsize
  refine ⟨t, ht, of_decide_eq_true hsize, it, xs, hit, hrun, hnodup, (hmem 24).mpr h24, fun h => ?_⟩
  rw [hmem 8, h8] at h
  cases h

end HashTable

end Nachos
