import Mathlib.Data.List.Sort
import Folio.Storage.FileTree

/-!
# What paths lead to

A file tree is a map from paths to directories and texts. This module says how the map changes when
an entry is written or removed, how a path is followed when it is the end of a longer one, and what
the listing of a directory holds.

* `FileTree.IsSound`: every path is there once, and what is there is in a directory;
* `walk_append`, `walk_mono`: a path is followed part by part, and goes where it went as long as
  the directories on the way stay;
* `makeDirectories_append`: the directories of a path that leads to one need not be made;
* `fileNames_lists`: a listing has the names of the files in a directory, each once and in order.
-/

namespace Folio

/-! ### Maps as lists of pairs -/

section Entries

variable {κ ν : Type} {l : List (κ × ν)} {k j : κ} {v : ν}

theorem nodup_keys_filter (p : κ × ν → Bool) (h : (l.map (·.1)).Nodup) :
    ((l.filter p).map (·.1)).Nodup :=
  h.sublist (List.filter_sublist.map _)

variable [BEq κ] [LawfulBEq κ]

theorem nodup_keys_put (h : (l.map (·.1)).Nodup) :
    (((k, v) :: l.filter (·.1 != k)).map (·.1)).Nodup := by
  rw [List.map_cons, List.nodup_cons]
  refine ⟨?_, nodup_keys_filter _ h⟩
  simp

theorem lookup_filter_self (l : List (κ × ν)) (k : κ) : (l.filter (·.1 != k)).lookup k = none := by
  rw [List.lookup_eq_none_iff]
  intro e he
  have ne := (List.mem_filter.1 he).2
  rw [bne_iff_ne] at ne ⊢
  exact ne.symm

theorem lookup_filter_of_ne (l : List (κ × ν)) (h : j ≠ k) :
    (l.filter (·.1 != k)).lookup j = l.lookup j := by
  induction l with
  | nil => rfl
  | cons e l ih =>
    obtain ⟨i, v⟩ := e
    by_cases hi : i = k
    · subst hi
      rw [List.filter_cons_of_neg (by simp), ih, List.lookup_cons, beq_false_of_ne h]
    · rw [List.filter_cons_of_pos (by simpa using hi), List.lookup_cons, List.lookup_cons, ih]

theorem mem_iff_lookup (h : (l.map (·.1)).Nodup) : (k, v) ∈ l ↔ l.lookup k = some v := by
  induction l with
  | nil => simp
  | cons e l ih =>
    obtain ⟨i, w⟩ := e
    rw [List.map_cons, List.nodup_cons] at h
    rw [List.mem_cons, List.lookup_cons, ih h.2]
    by_cases hk : k = i
    · subst hk
      have hl : l.lookup k = none := by
        rw [List.lookup_eq_none_iff]
        intro e he
        rw [bne_iff_ne]
        rintro rfl
        exact h.1 (List.mem_map.2 ⟨e, he, rfl⟩)
      simp [hl, eq_comm]
    · simp [beq_false_of_ne hk, hk]

end Entries

/-! ### Lists of names -/

/-- The names with a property, each once and in order. -/
structure Lists (names : List String) (P : String → Prop) : Prop where
  sorted : names.Pairwise (· ≤ ·)
  once : names.Nodup
  mem_iff : ∀ n, n ∈ names ↔ P n

/-- There is one list of the names with a property. -/
theorem Lists.eq {ns ms : List String} {P Q : String → Prop} (hn : Lists ns P) (hm : Lists ms Q)
    (h : ∀ n, P n ↔ Q n) : ns = ms := by
  have same : ns.Perm ms := by
    rw [List.perm_ext_iff_of_nodup hn.once hm.once]
    intro n
    rw [hn.mem_iff, hm.mem_iff, h]
  exact same.eq_of_pairwise (fun _ _ _ _ => String.le_antisymm) hn.sorted hm.sorted

theorem lists_nil {P : String → Prop} (h : ∀ n, ¬ P n) : Lists [] P :=
  ⟨.nil, .nil, fun n => by simp [h n]⟩

theorem lists_mergeSort {ns : List String} (h : ns.Nodup) :
    Lists (ns.mergeSort fun a b => decide (a ≤ b)) (· ∈ ns) where
  sorted := by
    have sorted : (ns.mergeSort fun a b => decide (a ≤ b)).Pairwise
        fun a b => decide (a ≤ b) = true :=
      List.pairwise_mergeSort
        (fun a b c hab hbc => by
          rw [decide_eq_true_eq] at hab hbc ⊢
          exact String.le_trans hab hbc)
        (fun a b => by simpa using String.le_total a b) ns
    simpa using sorted
  once := (List.mergeSort_perm ns _).nodup_iff.2 h
  mem_iff n := (List.mergeSort_perm ns _).mem_iff

/-! ### The map -/

namespace FileTree

variable {t t' : FileTree} {p q here : Path} {e : FileEntry} {parts more : List String}
  {part : String}

/-- The tree is a map, and whatever it holds lies in a directory. -/
structure IsSound (t : FileTree) : Prop where
  once : (t.entries.map (·.1)).Nodup
  inDirectory : ∀ p part, t.get? (p ++ [part]) ≠ none → t.get? p = some .directory

/-- The tree without what is at a path. -/
def without (t : FileTree) (p : Path) : FileTree :=
  { t with entries := t.entries.filter (·.1 != p) }

theorem get?_set (hp : p ≠ []) :
    (t.set p e).get? q = if q = p then some e else t.get? q := by
  by_cases hq : q = p
  · subst hq
    rw [if_pos rfl, get?, if_neg hp, set, List.lookup_cons_self]
  · rw [if_neg hq, get?, get?, set, List.lookup_cons, beq_false_of_ne hq]
    simp only [lookup_filter_of_ne t.entries hq]

theorem get?_without (hp : p ≠ []) :
    (t.without p).get? q = if q = p then none else t.get? q := by
  by_cases hq : q = p
  · subst hq
    rw [if_pos rfl, get?, if_neg hp, without, lookup_filter_self]
  · rw [if_neg hq, get?, get?, without]
    simp only [lookup_filter_of_ne t.entries hq]

/-- A new entry, or a file over another, in a directory keeps the tree sound. -/
theorem IsSound.set (h : t.IsSound) (hp : p ≠ []) (hd : t.get? p.dropLast = some .directory)
    (hn : t.get? p ≠ some .directory) : (t.set p e).IsSound where
  once := by
    rw [FileTree.set]
    exact nodup_keys_put h.once
  inDirectory q part hq := by
    have parent : t.get? q = some .directory := by
      rw [get?_set hp] at hq
      split at hq
      case isTrue eq => rwa [← eq, List.dropLast_concat] at hd
      case isFalse ne => exact h.inDirectory q part hq
    rw [get?_set hp, if_neg, parent]
    rintro rfl
    exact hn parent

theorem IsSound.without {text : Text} (h : t.IsSound) (hp : p ≠ [])
    (hf : t.get? p = some (.file text)) : (t.without p).IsSound where
  once := nodup_keys_filter _ h.once
  inDirectory q part hq := by
    rw [get?_without hp] at hq
    have parent : t.get? q = some .directory := by
      split at hq
      case isTrue => exact absurd rfl hq
      case isFalse => exact h.inDirectory q part hq
    rw [get?_without hp, if_neg, parent]
    rintro rfl
    rw [hf] at parent
    cases parent

/-! ### Following paths -/

/-- A part that leads one step down from a directory. -/
def IsStep (t : FileTree) (part : String) : Prop :=
  part ≠ "" ∧ part ≠ "." ∧ part ≠ ".." ∧ t.accepts part = true

theorem walk_append (h : t.walk here parts = .ok p) :
    t.walk here (parts ++ more) = t.walk p more := by
  induction parts generalizing here with
  | nil =>
    cases h
    rfl
  | cons part parts ih =>
    rw [List.cons_append, walk]
    rw [walk] at h
    split at h
    case h_1 => cases h
    case h_2 => cases h
    case h_3 =>
      split_ifs at h with here? above? accepted?
      · rw [if_pos here?, ih h]
      · rw [if_neg here?, if_pos above?, ih h]
      · rw [if_neg here?, if_neg above?, if_pos accepted?, ih h]

/-- A path that leads somewhere leads there in every tree that has the same directories. -/
theorem walk_mono (ha : t'.accepts = t.accepts)
    (hd : ∀ p, t.get? p = some .directory → t'.get? p = some .directory)
    (h : t.walk here parts = .ok p) : t'.walk here parts = .ok p := by
  induction parts generalizing here with
  | nil => exact h
  | cons part parts ih =>
    rw [walk] at h ⊢
    split at h
    case h_1 => cases h
    case h_2 => cases h
    case h_3 stays =>
      rw [hd here stays, ha]
      split_ifs at h ⊢
      all_goals exact ih h

/-- Whoever comes to a directory comes from one. -/
theorem get?_of_walk (h : t.walk here parts = .ok p) (hd : t.get? p = some .directory) :
    t.get? here = some .directory := by
  cases parts with
  | nil =>
    cases h
    exact hd
  | cons part parts =>
    rw [walk] at h
    split at h
    case h_1 => cases h
    case h_2 => cases h
    case h_3 stays => exact stays

theorem walk_step (hd : t.get? here = some .directory) (hp : t.IsStep part) :
    t.walk here (part :: parts) = t.walk (here ++ [part]) parts := by
  obtain ⟨ne, here?, above?, accepted⟩ := hp
  simp [walk, hd, ne, here?, above?, accepted]

theorem makeDirectories_step (hp : t.IsStep part) :
    t.makeDirectories here [part] =
      match t.get? (here ++ [part]) with
      | some .directory => .ok t
      | some (.file _) => .error .alreadyExists
      | none => .ok (t.set (here ++ [part]) .directory) := by
  obtain ⟨ne, here?, above?, accepted⟩ := hp
  rw [makeDirectories, if_neg (by simp [ne, here?]), if_neg above?, if_pos accepted]
  rfl

/-- The directories on the way to a directory are there, so that none is made. -/
theorem makeDirectories_append (h : t.walk here parts = .ok p) (hd : t.get? p = some .directory) :
    t.makeDirectories here (parts ++ more) = t.makeDirectories p more := by
  induction parts generalizing here with
  | nil =>
    cases h
    rfl
  | cons part parts ih =>
    rw [List.cons_append, makeDirectories]
    rw [walk] at h
    split at h
    case h_1 => cases h
    case h_2 => cases h
    case h_3 =>
      split_ifs at h with here? above? accepted?
      · rw [if_pos here?, ih h]
      · rw [if_neg here?, if_pos above?, ih h]
      · rw [if_neg here?, if_neg above?, if_pos accepted?, get?_of_walk h hd, ih h]

/-! ### Entries at the end of a path -/

theorem find_of_resolve (hr : t.resolve p = .ok q) :
    t.find p = match t.get? q with | some e => .ok e | none => .error .notFound := by
  rw [find, hr]
  change (match t.get? q with | some e => _ | none => _) = _
  cases t.get? q <;> rfl

theorem find_of_resolve_error {e : FileError} (hr : t.resolve p = .error e) :
    t.find p = .error e := by
  rw [find, hr]
  rfl

theorem find_eq_ok_iff : t.find p = .ok e ↔ ∃ q, t.resolve p = .ok q ∧ t.get? q = some e := by
  rcases hr : t.resolve p with error | q
  · simp [find_of_resolve_error hr]
  · rw [find_of_resolve hr]
    cases found : t.get? q <;> simp [found]

theorem read_of_find_ok {text : Text} (h : t.find p = .ok (.file text)) :
    t.read p = .ok text := by
  rw [read, h]
  rfl

theorem read_of_find_error {error : FileError} (h : t.find p = .error error) :
    t.read p = .error error := by
  rw [read, h]
  rfl

theorem write_of_get? {text : Text} (hr : t.resolve p = .ok q)
    (hn : t.get? q ≠ some .directory) : t.write p text = .ok (t.set q (.file text)) := by
  rw [write, hr]
  dsimp only [bind, Except.bind]
  rcases found : t.get? q with _ | _ | _
  · rfl
  · exact absurd found hn
  · rfl

theorem create_of_resolve (text : Text) (hr : t.resolve p = .ok q) :
    t.create p text =
      match t.get? q with
      | some _ => .error .alreadyExists
      | none => .ok (t.set q (.file text)) := by
  rw [create, hr]
  dsimp only [bind, Except.bind]
  cases t.get? q <;> rfl

theorem remove_of_get? {text : Text} (hr : t.resolve p = .ok q)
    (hf : t.get? q = some (.file text)) : t.remove p = .ok (t.without q) := by
  rw [remove, hr]
  dsimp only [bind, Except.bind]
  rw [hf]
  rfl

theorem remove_of_find_error {error : FileError} (h : t.find p = .error error) :
    t.remove p = .error error := by
  rcases hr : t.resolve p with e | q
  · rw [find_of_resolve_error hr] at h
    cases h
    rw [remove, hr]
    rfl
  · rw [find_of_resolve hr] at h
    rw [remove, hr]
    dsimp only [bind, Except.bind]
    cases found : t.get? q with
    | none =>
      rw [found] at h
      cases h
      rfl
    | some e =>
      rw [found] at h
      cases h

/-- Directories are made for the last part of a path only, where the others lead to one. -/
theorem createDirectories_of_resolve (hr : t.resolve p = .ok q)
    (hd : t.get? q = some .directory) (he : t.expressible part = true) :
    t.createDirectories (p ++ [part]) = t.makeDirectories q [part] := by
  rw [resolve] at hr
  split at hr
  case isFalse => cases hr
  case isTrue expressible =>
    rw [createDirectories, if_pos (by simp [List.all_append, expressible, he]),
      makeDirectories_append hr hd]

/-! ### Listings -/

/-- The name of an entry that is a file in a directory. -/
def nameIn? (p : Path) (e : Path × FileEntry) : Option String :=
  match e.2 with
  | .file _ => if e.1.dropLast = p then e.1.getLast? else none
  | .directory => none

theorem nameIn?_eq_some_iff {e : Path × FileEntry} {n : String} :
    nameIn? p e = some n ↔ ∃ text, e = (p ++ [n], .file text) := by
  obtain ⟨q, _ | text⟩ := e
  · simp [nameIn?]
  · simp only [nameIn?, Option.ite_none_right_eq_some, List.getLast?_eq_some_iff]
    constructor
    · rintro ⟨rfl, init, rfl⟩
      exact ⟨text, by rw [List.dropLast_concat]⟩
    · rintro ⟨text, h⟩
      cases h
      exact ⟨List.dropLast_concat, p, rfl⟩

/-- A listing has the names of the files in a directory. -/
theorem fileNames_lists (h : t.IsSound) (hr : t.resolve p = .ok q) :
    ∃ names, t.fileNames p = .ok names ∧
      Lists names fun n => ∃ text, t.get? (q ++ [n]) = some (.file text) := by
  have once : (t.entries.filterMap (nameIn? q)).Nodup := by
    rw [List.Nodup, List.pairwise_filterMap]
    refine (List.pairwise_map.1 h.once).imp ?_
    intro a b ne n hn m hm
    obtain ⟨_, rfl⟩ := nameIn?_eq_some_iff.1 hn
    obtain ⟨_, rfl⟩ := nameIn?_eq_some_iff.1 hm
    rintro rfl
    exact ne rfl
  have listed := lists_mergeSort once
  refine ⟨_, ?_, listed.sorted, listed.once, fun n => ?_⟩
  · rw [fileNames, hr]
    rfl
  · rw [listed.mem_iff, List.mem_filterMap]
    simp only [nameIn?_eq_some_iff, get?, List.append_ne_nil_of_right_ne_nil q (List.cons_ne_nil n []),
      if_false, ← mem_iff_lookup h.once]
    constructor
    · rintro ⟨_, mem, text, rfl⟩
      exact ⟨text, mem⟩
    · rintro ⟨text, mem⟩
      exact ⟨_, mem, text, rfl⟩

end FileTree
end Folio
