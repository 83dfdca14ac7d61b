import EffectMachine.Resource.Directory
import Mathlib.Data.Finset.Card
import Mathlib.Data.String.Basic

namespace EffectMachine

structure Insertion where
  path : ResourcePath
  id : ResourceId
  resource : Resource

namespace Insertion

def key (i : Insertion) : ResourceKey := ⟨i.path, i.resource.kind, i.id⟩

def under (key : ResourceKey) (is : List Insertion) : List Insertion :=
  is.filter fun i => i.key = key

def last? (key : ResourceKey) (is : List Insertion) : Option Resource :=
  (under key is).getLast?.map resource

variable {key : ResourceKey} {is js : List Insertion} {i : Insertion}

theorem last?_concat :
    last? key (is ++ [i]) = if i.key = key then some i.resource else last? key is := by
  by_cases h : i.key = key <;> simp [last?, under, h]

theorem last?_congr (h : under key is = under key js) : last? key is = last? key js := by
  rw [last?, h, last?]

theorem exists_of_last? (h : (last? key is).isSome) : ∃ i ∈ is, i.key = key := by
  rw [last?, Option.isSome_map] at h
  obtain ⟨i, hi⟩ := Option.isSome_iff_exists.mp h
  have hm := List.mem_filter.mp (List.mem_of_getLast? hi)
  exact ⟨i, hm.1, of_decide_eq_true hm.2⟩

end Insertion

namespace ResourcePath

variable {p q : ResourcePath}

/-- The way to the root passes the prefixes of a path, and no other. -/
theorem mem_ancestors : q ∈ p.ancestors ↔ q.segments <+: p.segments := by
  simp only [ancestors, List.mem_map, List.mem_reverse, List.mem_range]
  constructor
  · rintro ⟨n, -, rfl⟩
    exact List.take_prefix ..
  · intro h
    refine ⟨q.segments.length, Nat.lt_succ_of_le h.length_le, ?_⟩
    rw [← List.prefix_iff_eq_take.mp h]

/-- What comes later on the way to the root is a prefix of what comes before. -/
theorem pairwise_ancestors (p : ResourcePath) :
    p.ancestors.Pairwise fun q r => r.segments <+: q.segments := by
  rw [ancestors, List.pairwise_map, List.pairwise_reverse]
  exact List.pairwise_lt_range.imp fun h => List.take_prefix_take_left (Nat.le_of_lt h)

end ResourcePath

namespace Directory

variable {d d' : Directory} {key : ResourceKey} {kind : ResourceKind} {id : ResourceId}
  {p q : ResourcePath} {x : Resource} {is js : List Insertion}

def add (d : Directory) (i : Insertion) : Directory := d.insert i.path i.id i.resource

def ofInsertions (is : List Insertion) : Directory := is.foldl add {}

@[simp] theorem ofInsertions_concat (is : List Insertion) (i : Insertion) :
    ofInsertions (is ++ [i]) = (ofInsertions is).add i := by
  simp [ofInsertions]

theorem lookup_cons (e : ResourceKey × Resource) (entries : List (ResourceKey × Resource))
    (key : ResourceKey) :
    (e :: entries).lookup key = if e.1 = key then some e.2 else entries.lookup key := by
  obtain ⟨k, x⟩ := e
  rw [List.lookup_cons]
  by_cases h : k = key
  · simp [h]
  · simp [beq_false_of_ne (Ne.symm h), h]

theorem lookup_filter_ne (entries : List (ResourceKey × Resource)) {key key' : ResourceKey}
    (h : key' ≠ key) :
    (entries.filter fun e => e.1 ≠ key').lookup key = entries.lookup key := by
  induction entries with
  | nil => rfl
  | cons e entries ih =>
    by_cases hk : e.1 = key'
    · rw [List.filter_cons_of_neg (by simp [hk]), ih, lookup_cons, if_neg (hk ▸ h)]
    · rw [List.filter_cons_of_pos (by simp [hk]), lookup_cons, ih, lookup_cons]

theorem get?_add (d : Directory) (i : Insertion) (key : ResourceKey) :
    (d.add i).get? key = if i.key = key then some i.resource else d.get? key := by
  have he : (d.add i).entries = (i.key, i.resource) :: d.entries.filter fun e => e.1 ≠ i.key := rfl
  rw [get?, he, lookup_cons]
  by_cases h : i.key = key
  · rw [if_pos h, if_pos h]
  · rw [if_neg h, if_neg h, lookup_filter_ne _ h, get?]

theorem get?_ofInsertions (is : List Insertion) (key : ResourceKey) :
    (ofInsertions is).get? key = Insertion.last? key is := by
  induction is using List.reverseRecOn with
  | nil => rfl
  | append_singleton is i ih =>
    rw [ofInsertions_concat, get?_add, Insertion.last?_concat, ih]

def keys (d : Directory) : List ResourceKey := d.entries.map Prod.fst

theorem keys_add (d : Directory) (i : Insertion) :
    (d.add i).keys = i.key :: d.keys.filter fun k => k ≠ i.key := by
  rw [keys, keys, List.filter_map]
  rfl

/-- No key has two entries. -/
theorem nodup_keys (is : List Insertion) : (ofInsertions is).keys.Nodup := by
  induction is using List.reverseRecOn with
  | nil => exact List.nodup_nil
  | append_singleton is i ih =>
    rw [ofInsertions_concat, keys_add]
    exact List.nodup_cons.mpr ⟨by simp, ih.filter _⟩

theorem toFinset_keys (is : List Insertion) :
    (ofInsertions is).keys.toFinset = (is.map Insertion.key).toFinset := by
  induction is using List.reverseRecOn with
  | nil => rfl
  | append_singleton is i ih =>
    ext k
    have hk : k ∈ (ofInsertions is).keys ↔ k ∈ is.map Insertion.key := by
      rw [← List.mem_toFinset, ih, List.mem_toFinset]
    rw [List.mem_toFinset, List.mem_toFinset, ofInsertions_concat, keys_add, List.map_append,
      List.mem_cons, List.mem_filter, hk, List.mem_append, List.map_singleton, List.mem_singleton]
    by_cases h : k = i.key <;> simp [h]

theorem size_ofInsertions (is : List Insertion) :
    (ofInsertions is).size = (is.map Insertion.key).toFinset.card := by
  rw [← toFinset_keys, List.toFinset_card_of_nodup (nodup_keys is), keys, List.length_map, size]

def Holds (d : Directory) (kind : ResourceKind) (id : ResourceId) (p : ResourcePath) : Prop :=
  (d.get? ⟨p, kind, id⟩).isSome

/-- The longest prefix of a path that holds the key. -/
structure IsNearest (d : Directory) (kind : ResourceKind) (id : ResourceId)
    (p q : ResourcePath) : Prop where
  isPrefix : q.segments <+: p.segments
  holds : d.Holds kind id q
  longest : ∀ r, r.segments <+: p.segments → d.Holds kind id r →
    r.segments.length ≤ q.segments.length

/-- The root where it holds the key; else a holder whose text is least. -/
structure IsForemost (d : Directory) (kind : ResourceKind) (id : ResourceId)
    (p : ResourcePath) : Prop where
  holds : d.Holds kind id p
  root : d.Holds kind id .root → p = .root
  least : p = .root ∨ ∀ q, d.Holds kind id q → p.display ≤ q.display

theorem holds_iff : d.Holds kind id p ↔ ∃ x, d.get? ⟨p, kind, id⟩ = some x :=
  Option.isSome_iff_exists

theorem not_holds_iff : ¬d.Holds kind id p ↔ d.get? ⟨p, kind, id⟩ = none := by
  simp [Holds]

/-- What a search in order finds stands in the first place that has anything. -/
theorem exists_first_of_findSome? {R : ResourcePath → ResourcePath → Prop}
    {f : ResourcePath → Option Resource} {ps : List ResourcePath} (hs : ps.Pairwise R)
    (hr : ∀ p, R p p) (h : ps.findSome? f = some x) :
    ∃ p ∈ ps, f p = some x ∧ ∀ q ∈ ps, (f q).isSome → R p q := by
  obtain ⟨before, p, after, rfl, hp, hn⟩ := List.findSome?_eq_some_iff.mp h
  refine ⟨p, by simp, hp, fun q hq hf => ?_⟩
  rcases List.mem_append.mp hq with hb | ha
  · simp [hn q hb] at hf
  · rcases List.mem_cons.mp ha with rfl | ha
    · exact hr q
    · exact (List.pairwise_cons.mp (List.pairwise_append.mp hs).2.1).1 q ha

theorem resolve_eq (hid : id ≠ .none) (scope : SearchScope) :
    d.resolve id kind scope = (d.searchPaths scope).findSome? fun p => d.get? ⟨p, kind, id⟩ := by
  simp [resolve, ResourceId.isNone, hid]

theorem resolve_none (kind : ResourceKind) (scope : SearchScope) :
    d.resolve .none kind scope = none := by
  simp [resolve, ResourceId.isNone]

theorem resolve_inside (hid : id ≠ .none) (p : ResourcePath) :
    d.resolve id kind (.inside p) = d.get? ⟨p, kind, id⟩ := by
  rw [resolve_eq hid, searchPaths, List.findSome?_singleton]

/-- No two prefixes of a path are its nearest holder. -/
theorem IsNearest.eq {p q r : ResourcePath} (hq : d.IsNearest kind id p q)
    (hr : d.IsNearest kind id p r) : q = r := by
  have hl : q.segments.length = r.segments.length :=
    Nat.le_antisymm (hr.longest q hq.isPrefix hq.holds) (hq.longest r hr.isPrefix hr.holds)
  have he := (List.prefix_of_prefix_length_le hq.isPrefix hr.isPrefix hl.le).eq_of_length hl
  cases q
  cases r
  exact congrArg ResourcePath.mk he

theorem exists_nearest (hid : id ≠ .none) (h : d.resolve id kind (.ancestors p) = some x) :
    ∃ q, d.IsNearest kind id p q ∧ d.get? ⟨q, kind, id⟩ = some x := by
  rw [resolve_eq hid, searchPaths] at h
  obtain ⟨q, hq, hx, hf⟩ :=
    exists_first_of_findSome? p.pairwise_ancestors (fun _ => List.prefix_refl _) h
  refine ⟨q, ⟨ResourcePath.mem_ancestors.mp hq, holds_iff.mpr ⟨x, hx⟩, fun r hr hh => ?_⟩, hx⟩
  exact (hf r (ResourcePath.mem_ancestors.mpr hr) hh).length_le

theorem resolve_ancestors_eq_none (hid : id ≠ .none) :
    d.resolve id kind (.ancestors p) = none ↔
      ∀ q, q.segments <+: p.segments → ¬d.Holds kind id q := by
  simp only [resolve_eq hid, searchPaths, List.findSome?_eq_none_iff, ResourcePath.mem_ancestors,
    not_holds_iff]

theorem resolve_ancestors_eq_some (hid : id ≠ .none) :
    d.resolve id kind (.ancestors p) = some x ↔
      ∃ q, d.IsNearest kind id p q ∧ d.get? ⟨q, kind, id⟩ = some x := by
  refine ⟨exists_nearest hid, fun ⟨q, hq, hx⟩ => ?_⟩
  cases hy : d.resolve id kind (.ancestors p) with
  | none => exact ((resolve_ancestors_eq_none hid).mp hy q hq.isPrefix hq.holds).elim
  | some y =>
    obtain ⟨r, hr, hg⟩ := exists_nearest hid hy
    rw [← hg, hr.eq hq, hx]

theorem resolve_ancestors_of_inside (hid : id ≠ .none)
    (h : d.resolve id kind (.inside p) = some x) : d.resolve id kind (.ancestors p) = some x := by
  rw [resolve_inside hid] at h
  rw [resolve_ancestors_eq_some hid]
  exact ⟨p, ⟨List.prefix_refl _, holds_iff.mpr ⟨x, h⟩, fun r hr _ => hr.length_le⟩, h⟩

theorem pathOrder_iff : pathOrder p q = true ↔
    p = .root ∨ q ≠ .root ∧ p.display ≤ q.display := by
  have hroot (r : ResourcePath) : r.isRoot = true ↔ r = .root := by
    cases r
    simp [ResourcePath.isRoot, ResourcePath.root]
  unfold pathOrder
  by_cases hp : p = .root <;> by_cases hq : q = .root <;> simp [hroot, hp, hq]

/-- Directories are in search order. -/
theorem pairwise_directories (d : Directory) :
    d.directories.Pairwise fun p q => pathOrder p q = true := by
  apply List.pairwise_mergeSort
  · intro p q r hpq hqr
    rw [pathOrder_iff] at *
    rcases hpq with hp | ⟨hq, hle⟩
    · exact .inl hp
    · rcases hqr with hq' | ⟨hr, hle'⟩
      · exact (hq hq').elim
      · exact .inr ⟨hr, hle.trans hle'⟩
  · intro p q
    rw [Bool.or_eq_true, pathOrder_iff, pathOrder_iff]
    by_cases hp : p = .root
    · exact .inl (.inl hp)
    by_cases hq : q = .root
    · exact .inr (.inl hq)
    · exact (le_total p.display q.display).imp (fun h => .inr ⟨hq, h⟩) fun h => .inr ⟨hp, h⟩

theorem Holds.mem_directories (h : d.Holds kind id p) : p ∈ d.directories := by
  obtain ⟨x, hx⟩ := holds_iff.mp h
  obtain ⟨before, after, he, -⟩ := List.lookup_eq_some_iff.mp hx
  rw [directories, List.mem_mergeSort, List.mem_eraseDups, List.mem_map]
  exact ⟨(⟨p, kind, id⟩, x), by simp [he], rfl⟩

theorem exists_foremost (hid : id ≠ .none) (h : d.resolve id kind .everywhere = some x) :
    ∃ p, d.IsForemost kind id p ∧ d.get? ⟨p, kind, id⟩ = some x := by
  rw [resolve_eq hid, searchPaths] at h
  obtain ⟨p, -, hx, hf⟩ := exists_first_of_findSome? d.pairwise_directories
    (fun p => pathOrder_iff.mpr ((em _).imp_right fun hp => ⟨hp, le_refl _⟩)) h
  have before (q) (hq : d.Holds kind id q) := pathOrder_iff.mp (hf q hq.mem_directories hq)
  refine ⟨p, ⟨holds_iff.mpr ⟨x, hx⟩, fun hr => ?_, ?_⟩, hx⟩
  · exact (before _ hr).elim (fun hp => hp) fun hn => (hn.1 rfl).elim
  · by_cases hp : p = .root
    · exact .inl hp
    · exact .inr fun q hq => ((before q hq).resolve_left hp).2

theorem resolve_everywhere_eq_none (hid : id ≠ .none) :
    d.resolve id kind .everywhere = none ↔ ∀ q, ¬d.Holds kind id q := by
  rw [resolve_eq hid, searchPaths, List.findSome?_eq_none_iff]
  constructor
  · intro h q hq
    exact not_holds_iff.mpr (h q hq.mem_directories) hq
  · intro h q _
    exact not_holds_iff.mp (h q)

theorem isSome_everywhere_of_ancestors (hid : id ≠ .none)
    (h : (d.resolve id kind (.ancestors p)).isSome) :
    (d.resolve id kind .everywhere).isSome := by
  obtain ⟨x, hx⟩ := Option.isSome_iff_exists.mp h
  obtain ⟨q, hq, -⟩ := exists_nearest hid hx
  by_contra hn
  exact (resolve_everywhere_eq_none hid).mp (Option.not_isSome_iff_eq_none.mp hn) q hq.holds

/-- Paths with the same text that both come first are one. -/
theorem IsForemost.eq (hp : d.IsForemost kind id p) (hq : d.IsForemost kind id q)
    (hd : p.display = q.display → p = q) : p = q := by
  rcases hp.least with rfl | hpl
  · exact (hq.root hp.holds).symm
  rcases hq.least with rfl | hql
  · exact hp.root hq.holds
  · exact hd (le_antisymm (hpl q hq.holds) (hql p hp.holds))

/-- Directories that answer alike for every key answer alike in every search, unless two holders
of the key share a text. -/
theorem resolve_congr (hg : ∀ key, d.get? key = d'.get? key)
    (hd : ∀ p q, d.Holds kind id p → d.Holds kind id q → p.display = q.display → p = q)
    (scope : SearchScope) : d.resolve id kind scope = d'.resolve id kind scope := by
  by_cases hid : id = .none
  · rw [hid, resolve_none, resolve_none]
  have hh (p) : d.Holds kind id p ↔ d'.Holds kind id p := by rw [Holds, Holds, hg]
  cases scope with
  | inside p => rw [resolve_inside hid, resolve_inside hid, hg]
  | ancestors p => simp only [resolve_eq hid, searchPaths, hg]
  | everywhere =>
    cases hx : d.resolve id kind .everywhere with
    | none =>
      symm
      rw [resolve_everywhere_eq_none hid] at hx ⊢
      exact fun q hq => hx q ((hh q).mpr hq)
    | some x =>
      obtain ⟨p, hp, hpx⟩ := exists_foremost hid hx
      obtain ⟨y, hy⟩ : ∃ y, d'.resolve id kind .everywhere = some y := by
        rw [← Option.ne_none_iff_exists', ne_eq, resolve_everywhere_eq_none hid, not_forall]
        exact ⟨p, not_not.mpr ((hh p).mp hp.holds)⟩
      obtain ⟨q, hq, hqy⟩ := exists_foremost hid hy
      have hq' : d.IsForemost kind id q :=
        ⟨(hh q).mpr hq.holds, fun hr => hq.root ((hh _).mp hr),
          hq.least.imp_right fun hl r hr => hl r ((hh r).mp hr)⟩
      have he := hp.eq hq' (hd p q hp.holds hq'.holds)
      rw [hy, ← hpx, hg, he, hqy]

/-- Insertions come in another order: those under one key keep theirs. -/
def Reordered (is js : List Insertion) : Prop :=
  ∀ key, Insertion.under key is = Insertion.under key js

/-- Any order will do where every key has one insertion. -/
theorem Reordered.of_perm (h : is.Perm js) (hn : (is.map Insertion.key).Nodup) :
    Reordered is js := by
  intro key
  have hp : (Insertion.under key is).Perm (Insertion.under key js) := h.filter _
  have hk : (Insertion.under key is).map Insertion.key =
      List.replicate (Insertion.under key is).length key := by
    rw [List.eq_replicate_iff]
    refine ⟨List.length_map .., fun k hk => ?_⟩
    obtain ⟨i, hi, rfl⟩ := List.mem_map.mp hk
    exact of_decide_eq_true (List.mem_filter.mp hi).2
  have hl : (Insertion.under key is).length ≤ 1 := by
    rw [← List.nodup_replicate, ← hk]
    exact hn.sublist (List.filter_sublist.map _)
  cases hu : Insertion.under key is with
  | nil => rw [hu] at hp; exact hp.nil_eq
  | cons i rest =>
    rw [hu, List.length_cons] at hl
    obtain rfl : rest = [] := List.length_eq_zero_iff.mp (by omega)
    rw [hu] at hp
    exact hp.singleton_eq

def DistinctTexts (is : List Insertion) : Prop :=
  ∀ i ∈ is, ∀ j ∈ is, i.path.display = j.path.display → i.path = j.path

instance (is : List Insertion) : Decidable (DistinctTexts is) :=
  inferInstanceAs (Decidable (∀ i ∈ is, ∀ j ∈ is, i.path.display = j.path.display →
    i.path = j.path))

theorem Holds.exists_insertion (h : (ofInsertions is).Holds kind id p) : ∃ i ∈ is, i.path = p := by
  rw [Holds, get?_ofInsertions] at h
  obtain ⟨i, hi, hk⟩ := Insertion.exists_of_last? h
  exact ⟨i, hi, congrArg ResourceKey.path hk⟩

theorem resolve_of_reordered (h : Reordered is js) (hd : DistinctTexts is)
    (id : ResourceId) (kind : ResourceKind) (scope : SearchScope) :
    (ofInsertions is).resolve id kind scope = (ofInsertions js).resolve id kind scope := by
  apply resolve_congr
  · intro key
    rw [get?_ofInsertions, get?_ofInsertions, Insertion.last?_congr (h key)]
  · intro p q hp hq ht
    obtain ⟨i, hi, rfl⟩ := hp.exists_insertion
    obtain ⟨j, hj, rfl⟩ := hq.exists_insertion
    exact hd i hi j hj ht

/-- A directory is a map in which the last thing put under a key stays. Climbing finds the entry of
the longest prefix that holds the key; searching everywhere that of the root, or else that of the
least text. The scopes agree where one contains the other, and what any search finds does not
depend on the order of insertions under different keys, unless two places share a text. -/
theorem lookups_of_insertions (is : List Insertion) (id : ResourceId) (kind : ResourceKind)
    (hid : id ≠ .none) :
    (∀ key, (ofInsertions is).get? key = Insertion.last? key is) ∧
    (ofInsertions is).size = (is.map Insertion.key).toFinset.card ∧
    (∀ p x, (ofInsertions is).resolve id kind (.ancestors p) = some x ↔
      ∃ q, (ofInsertions is).IsNearest kind id p q ∧
        Insertion.last? ⟨q, kind, id⟩ is = some x) ∧
    (∀ p, (ofInsertions is).resolve id kind (.ancestors p) = none ↔
      ∀ q, q.segments <+: p.segments → Insertion.last? ⟨q, kind, id⟩ is = none) ∧
    (∀ p x, (ofInsertions is).resolve id kind (.inside p) = some x →
      (ofInsertions is).resolve id kind (.ancestors p) = some x) ∧
    (∀ p, ((ofInsertions is).resolve id kind (.ancestors p)).isSome →
      ((ofInsertions is).resolve id kind .everywhere).isSome) ∧
    (∀ x, (ofInsertions is).resolve id kind .everywhere = some x →
      ∃ p, (ofInsertions is).IsForemost kind id p ∧
        Insertion.last? ⟨p, kind, id⟩ is = some x) ∧
    ((ofInsertions is).resolve id kind .everywhere = none ↔
      ∀ p, Insertion.last? ⟨p, kind, id⟩ is = none) ∧
    (DistinctTexts is → ∀ js, Reordered is js → ∀ id kind scope,
      (ofInsertions is).resolve id kind scope = (ofInsertions js).resolve id kind scope) := by
  refine ⟨get?_ofInsertions is, size_ofInsertions is, ?_⟩
  simp only [← get?_ofInsertions]
  refine ⟨fun _ _ => resolve_ancestors_eq_some hid, fun p => ?_,
    fun _ _ => resolve_ancestors_of_inside hid, fun _ => isSome_everywhere_of_ancestors hid,
    fun _ => exists_foremost hid, ?_, fun hd js hr => resolve_of_reordered hr hd⟩
  · simp only [resolve_ancestors_eq_none hid, not_holds_iff]
  · simp only [resolve_everywhere_eq_none hid, not_holds_iff]

def glow : ResourceId := ⟨0x67, 0x6c, 0x6f, 0x77⟩

def lamp : ResourcePath := ⟨[⟨0x6c, 0x61, 0x6d, 0x70⟩]⟩

def glows : List Insertion :=
  [⟨.root, glow, .keyFrames ⟨glow, []⟩⟩, ⟨lamp, glow, .keyFrames ⟨glow, [⟨0, 1⟩]⟩⟩]

theorem lookups_of_glows :
    glow ≠ .none ∧ (ofInsertions glows).size = 2 ∧
    (ofInsertions glows).resolve glow .keyFrames (.ancestors lamp) =
      some (.keyFrames ⟨glow, [⟨0, 1⟩]⟩) ∧
    DistinctTexts glows ∧ Reordered glows glows.reverse ∧
    ∀ id kind scope, (ofInsertions glows).resolve id kind scope =
      (ofInsertions glows.reverse).resolve id kind scope := by
  have hid : glow ≠ .none := by decide
  have hd : DistinctTexts glows := by decide +kernel
  have hr : Reordered glows glows.reverse :=
    .of_perm (List.reverse_perm glows).symm (by decide)
  obtain ⟨-, hsize, -, -, hinside, -, -, -, horder⟩ :=
    lookups_of_insertions glows glow .keyFrames hid
  exact ⟨hid, hsize.trans (by decide), hinside lamp _ rfl, hd, hr, horder hd _ hr⟩

end Directory
end EffectMachine
