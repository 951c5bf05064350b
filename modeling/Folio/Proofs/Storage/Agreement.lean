import Folio.Proofs.Storage.Trees
import Folio.Storage.Directory
import Folio.Storage.Memory

/-!
# Stores in directories and in memory

A store in a directory and one in memory answer requests alike as long as the documents in memory
are the files two steps below the root of the directory store. This is `DirectoryStore.Mirrors`, and
every request keeps it.

* `StoreRequest`, `StoreAnswer`: what a store can be asked, and what it says;
* `DirectoryStore.Rooted`: where paths lead in a store whose root is a directory;
* `DirectoryStore.Mirrors.answer_eq`, `Mirrors.after`: what one request does;
* `DirectoryStore.Mirrors.answers_eq`: what sequences of requests do.
-/

namespace Folio

/-- A request to a store. -/
inductive StoreRequest
  | get (a : Address)
  | put (a : Address) (text : Text)
  | create (a : Address) (text : Text)
  | delete (a : Address)
  | names (category : String)
  deriving DecidableEq, Repr

/-- Refuses a request whose category or name is not allowed. -/
def StoreRequest.check : StoreRequest → Except StoreError Unit
  | get a | put a _ | create a _ | delete a => a.check
  | names category => Address.checkSegment category

/-- What a store says to a request. -/
inductive StoreAnswer
  | text (text : Text)
  | done
  | names (names : List String)
  | refused (e : StoreError)
  deriving DecidableEq, Repr

/-- The answer that a result is. -/
def StoreAnswer.of {α : Type} (answer : α → StoreAnswer) : Except StoreError α → StoreAnswer
  | .ok x => answer x
  | .error e => .refused e

namespace MemoryStore

/-- What the store says to a request. -/
def answer (s : MemoryStore) : StoreRequest → StoreAnswer
  | .get a => .of .text (s.get a)
  | .put a text => .of (fun _ => .done) (s.put a text)
  | .create a text => .of (fun _ => .done) (s.create a text)
  | .delete a => .of (fun _ => .done) (s.delete a)
  | .names category => .of .names (s.names category)

/-- The store after a request. -/
def after (s : MemoryStore) : StoreRequest → MemoryStore
  | .put a text => (s.put a text).toOption.getD s
  | .create a text => (s.create a text).toOption.getD s
  | .delete a => (s.delete a).toOption.getD s
  | .get _ | .names _ => s

/-- The store after requests. -/
def afterAll (s : MemoryStore) (requests : List StoreRequest) : MemoryStore :=
  requests.foldl after s

/-- What the store says to requests, one after the other. -/
def answers (s : MemoryStore) : List StoreRequest → List StoreAnswer
  | [] => []
  | r :: rs => s.answer r :: (s.after r).answers rs

end MemoryStore

namespace DirectoryStore

/-- What the store says to a request. -/
def answer (s : DirectoryStore) : StoreRequest → StoreAnswer
  | .get a => .of .text (s.get a)
  | .put a text => .of (fun _ => .done) (s.put a text)
  | .create a text => .of (fun _ => .done) (s.create a text)
  | .delete a => .of (fun _ => .done) (s.delete a)
  | .names category => .of .names (s.names category)

/-- The store after a document was not created: the directory of the category may be new. -/
def afterRefusal (s : DirectoryStore) (a : Address) : DirectoryStore :=
  match a.check with
  | .ok _ => (s.openCategory a.category).toOption.getD s
  | .error _ => s

/-- The store after a request. -/
def after (s : DirectoryStore) : StoreRequest → DirectoryStore
  | .put a text => (s.put a text).toOption.getD s
  | .create a text => (s.create a text).toOption.getD (s.afterRefusal a)
  | .delete a => (s.delete a).toOption.getD s
  | .get _ | .names _ => s

/-- The store after requests. -/
def afterAll (s : DirectoryStore) (requests : List StoreRequest) : DirectoryStore :=
  requests.foldl after s

/-- What the store says to requests, one after the other. -/
def answers (s : DirectoryStore) : List StoreRequest → List StoreAnswer
  | [] => []
  | r :: rs => s.answer r :: (s.after r).answers rs

end DirectoryStore

/-! ### Addresses -/

namespace Address

variable {a b : Address} {part : String}

theorem check_eq_ok_iff :
    a.check = .ok () ↔ isValidSegment a.category = true ∧ isValidSegment a.name = true := by
  cases hc : isValidSegment a.category <;> cases hn : isValidSegment a.name <;>
    simp [check, checkSegment, hc, hn, bind, Except.bind]

theorem checkSegment_eq_ok_iff : checkSegment part = .ok () ↔ isValidSegment part = true := by
  cases h : isValidSegment part <;> simp [checkSegment, h]

/-- A part of a path that leads one step down, and no further. -/
def IsPart (part : String) : Prop :=
  part ≠ "" ∧ part ≠ "." ∧ part ≠ ".." ∧ '/' ∉ part.toList ∧ '\\' ∉ part.toList

theorem isPart_of_isValidSegment (h : isValidSegment part = true) : IsPart part := by
  simp only [isValidSegment, Bool.and_eq_true, bne_iff_ne, Bool.not_eq_true', ne_eq,
    List.contains_eq_mem, decide_eq_false_iff_not] at h
  obtain ⟨⟨⟨ne, dot⟩, slash⟩, backslash⟩ := h
  refine ⟨?_, ?_, ?_, slash, backslash⟩
  · rintro rfl
    exact absurd ne (by decide)
  · rintro rfl
    exact absurd rfl dot
  · rintro rfl
    exact absurd rfl dot

end Address

namespace MemoryStore

variable {m : MemoryStore} {a b : Address} {text : Text}

theorem find?_set : (m.set a text).find? b = if b = a then some text else m.find? b := by
  by_cases h : b = a
  · subst h
    rw [if_pos rfl, find?, set, List.lookup_cons_self]
  · rw [if_neg h, find?, set, List.lookup_cons, beq_false_of_ne h]
    exact lookup_filter_of_ne m.documents h

/-- The store without the document at an address. -/
def without (m : MemoryStore) (a : Address) : MemoryStore :=
  { documents := m.documents.filter (·.1 != a) }

theorem find?_without : (m.without a).find? b = if b = a then none else m.find? b := by
  by_cases h : b = a
  · subst h
    rw [if_pos rfl, find?, without, lookup_filter_self]
  · rw [if_neg h, find?, without]
    exact lookup_filter_of_ne m.documents h

/-- A category lists the names of its documents. -/
theorem names_lists (h : (m.documents.map (·.1)).Nodup) {category : String}
    (hc : Address.checkSegment category = .ok ()) :
    ∃ names, m.names category = .ok names ∧
      Lists names fun n => (m.find? ⟨category, n⟩).isSome := by
  have once : ((m.documents.filter (·.1.category == category)).map (·.1.name)).Nodup := by
    rw [List.Nodup, List.pairwise_map]
    refine List.Pairwise.imp_of_mem ?_ ((List.pairwise_map.1 h).filter _)
    intro d e hd he ne same
    have dc := (List.mem_filter.1 hd).2
    have ec := (List.mem_filter.1 he).2
    rw [beq_iff_eq] at dc ec
    apply ne
    cases hd' : d.1
    cases he' : e.1
    simp_all
  have listed := lists_mergeSort once
  refine ⟨_, ?_, listed.sorted, listed.once, fun n => ?_⟩
  · rw [names, hc]
    rfl
  · rw [listed.mem_iff, Option.isSome_iff_exists]
    simp only [find?, ← mem_iff_lookup h, List.mem_map, List.mem_filter, beq_iff_eq]
    constructor
    · rintro ⟨⟨⟨c, n⟩, text⟩, ⟨mem, rfl⟩, rfl⟩
      exact ⟨text, mem⟩
    · rintro ⟨text, mem⟩
      exact ⟨_, ⟨mem, rfl⟩, rfl⟩

end MemoryStore

/-! ### One step -/

/-- What is assumed of the files: they are a map, and a name that a store may use can be used. -/
structure FileTree.IsSuitable (t : FileTree) : Prop extends t.IsSound where
  takes : ∀ part, Address.isValidSegment part = true →
    t.expressible part = true ∧ t.accepts part = true

theorem FileTree.IsSuitable.isStep {t : FileTree} {part : String} (h : t.IsSuitable)
    (hp : Address.isValidSegment part = true) : t.IsStep part :=
  have is := Address.isPart_of_isValidSegment hp
  ⟨is.1, is.2.1, is.2.2.1, (h.takes part hp).2⟩

namespace DirectoryStore

variable {base : Path} {s : DirectoryStore} {m : MemoryStore} {a b : Address} {text : Text}
  {category : String}

/-- The root of a store leads to the directory `base`. -/
structure Rooted (base : Path) (s : DirectoryStore) : Prop where
  suitable : s.tree.IsSuitable
  resolve_root : s.tree.resolve s.root = .ok base
  isDirectory : s.tree.get? base = some .directory

namespace Rooted

theorem resolve_below (h : Rooted base s) {parts : List String}
    (hp : ∀ part ∈ parts, Address.isValidSegment part = true) :
    s.tree.resolve (s.root ++ parts) = s.tree.walk base parts := by
  have root := h.resolve_root
  rw [FileTree.resolve] at root ⊢
  split at root
  case isFalse => cases root
  case isTrue expressible =>
    have all : (s.root ++ parts).all s.tree.expressible = true := by
      rw [List.all_append, expressible, Bool.true_and, List.all_eq_true]
      exact fun part mem => (h.suitable.takes part (hp part mem)).1
    rw [if_pos all, FileTree.walk_append root]

theorem resolve_category (h : Rooted base s) (hc : Address.isValidSegment category = true) :
    s.tree.resolve (s.categoryPath category) = .ok (base ++ [category]) := by
  rw [categoryPath, h.resolve_below (by simpa using hc),
    FileTree.walk_step h.isDirectory (h.suitable.isStep hc), FileTree.walk]

theorem resolve_path (h : Rooted base s) (ha : a.check = .ok ())
    (hd : s.tree.get? (base ++ [a.category]) = some .directory) :
    s.tree.resolve (s.path a) = .ok (base ++ [a.category, a.name]) := by
  obtain ⟨hc, hn⟩ := Address.check_eq_ok_iff.1 ha
  rw [path, h.resolve_below (by simpa using ⟨hc, hn⟩),
    FileTree.walk_step h.isDirectory (h.suitable.isStep hc),
    FileTree.walk_step hd (h.suitable.isStep hn), FileTree.walk, List.append_assoc]
  rfl

/-- Without its category, no document is found. -/
theorem resolve_path_of_none (h : Rooted base s) (ha : a.check = .ok ())
    (hd : s.tree.get? (base ++ [a.category]) = none) :
    s.tree.resolve (s.path a) = .error .notFound := by
  obtain ⟨hc, hn⟩ := Address.check_eq_ok_iff.1 ha
  rw [path, h.resolve_below (by simpa using ⟨hc, hn⟩),
    FileTree.walk_step h.isDirectory (h.suitable.isStep hc), FileTree.walk, hd]

/-- The root stays where it is while directories stay. -/
theorem of_stays {t : FileTree} (h : Rooted base s) (suitable : t.IsSuitable)
    (he : t.expressible = s.tree.expressible) (ha : t.accepts = s.tree.accepts)
    (hd : ∀ p, s.tree.get? p = some .directory → t.get? p = some .directory) :
    Rooted base { s with tree := t } where
  suitable := suitable
  isDirectory := hd _ h.isDirectory
  resolve_root := by
    have root := h.resolve_root
    rw [FileTree.resolve] at root
    rw [FileTree.resolve, he]
    split at root
    case isFalse => cases root
    case isTrue expressible =>
      rw [if_pos expressible]
      exact FileTree.walk_mono ha hd root

theorem set {p : Path} {e : FileEntry} (h : Rooted base s) (hp : p ≠ [])
    (hd : s.tree.get? p.dropLast = some .directory) (hn : s.tree.get? p ≠ some .directory) :
    Rooted base { s with tree := s.tree.set p e } := by
  refine h.of_stays { h.suitable.toIsSound.set hp hd hn with takes := h.suitable.takes } rfl rfl ?_
  intro q hq
  rw [FileTree.get?_set hp, if_neg, hq]
  rintro rfl
  exact hn hq

theorem without {p : Path} (h : Rooted base s) (hp : p ≠ [])
    (hf : s.tree.get? p = some (.file text)) :
    Rooted base { s with tree := s.tree.without p } := by
  refine h.of_stays { h.suitable.toIsSound.without hp hf with takes := h.suitable.takes } rfl rfl ?_
  intro q hq
  rw [FileTree.get?_without hp, if_neg, hq]
  rintro rfl
  rw [hf] at hq
  cases hq

/-- The directory of a category is made unless it is there. -/
theorem openCategory_eq (h : Rooted base s) (hc : Address.isValidSegment category = true)
    (noFile : ∀ text, s.tree.get? (base ++ [category]) ≠ some (.file text)) :
    ∃ t, s.openCategory category = .ok { s with tree := t } ∧
      Rooted base { s with tree := t } ∧
      t.get? (base ++ [category]) = some .directory ∧
      ∀ p, p ≠ base ++ [category] → t.get? p = s.tree.get? p := by
  have step := h.suitable.isStep hc
  rw [DirectoryStore.openCategory, categoryPath,
    FileTree.createDirectories_of_resolve h.resolve_root h.isDirectory
      (h.suitable.takes category hc).1, FileTree.makeDirectories_step step]
  rcases found : s.tree.get? (base ++ [category]) with _ | _ | text
  · refine ⟨_, rfl, h.set (by simp) ?_ (by simp [found]), ?_, fun p ne => ?_⟩
    · rw [List.dropLast_concat, h.isDirectory]
    · rw [FileTree.get?_set (by simp), if_pos rfl]
    · rw [FileTree.get?_set (by simp), if_neg ne]
  · exact ⟨s.tree, rfl, h, found, fun _ _ => rfl⟩
  · exact absurd found (noFile text)

end Rooted

/-- The files of a store, whose root leads to `base`, are the documents of one in memory. -/
structure Mirrors (base : Path) (s : DirectoryStore) (m : MemoryStore) : Prop
    extends Rooted base s where
  once : (m.documents.map (·.1)).Nodup
  noFile : ∀ c text, s.tree.get? (base ++ [c]) ≠ some (.file text)
  document : ∀ a : Address,
    s.tree.get? (base ++ [a.category, a.name]) = (m.find? a).map .file

namespace Mirrors

/-- The directory of a document's category is there. -/
theorem get?_category (h : Mirrors base s m) (ha : m.find? a = some text) :
    s.tree.get? (base ++ [a.category]) = some .directory := by
  refine h.suitable.inDirectory _ a.name ?_
  have found := h.document a
  rw [ha] at found
  rw [List.append_assoc]
  exact ne_of_eq_of_ne found (Option.some_ne_none _)

theorem find_category (h : Mirrors base s m) (hc : Address.isValidSegment category = true) :
    s.tree.find (s.categoryPath category) =
      if s.tree.get? (base ++ [category]) = some .directory then .ok .directory
      else .error .notFound := by
  rw [FileTree.find_of_resolve (h.resolve_category hc)]
  have noFile := h.noFile category
  rcases found : s.tree.get? (base ++ [category]) with _ | _ | text
  · simp
  · simp
  · exact absurd found (noFile text)

theorem find_path (h : Mirrors base s m) (ha : a.check = .ok ()) :
    s.tree.find (s.path a) =
      match m.find? a with
      | some text => .ok (.file text)
      | none => .error .notFound := by
  by_cases hd : s.tree.get? (base ++ [a.category]) = some .directory
  · rw [FileTree.find_of_resolve (h.resolve_path ha hd), h.document]
    cases m.find? a <;> rfl
  · have absent : m.find? a = none :=
      Option.eq_none_iff_forall_ne_some.2 fun _ found => hd (h.get?_category found)
    have noCategory : s.tree.get? (base ++ [a.category]) = none := by
      have noFile := h.noFile a.category
      rcases found : s.tree.get? (base ++ [a.category]) with _ | _ | text
      · rfl
      · exact absurd found hd
      · exact absurd found (noFile text)
    rw [FileTree.find_of_resolve_error (h.resolve_path_of_none ha noCategory), absent]

/-! #### What is done to the files -/

theorem openCategory_eq (h : Mirrors base s m) (hc : Address.isValidSegment category = true) :
    ∃ t, s.openCategory category = .ok { s with tree := t } ∧
      Mirrors base { s with tree := t } m ∧
      t.get? (base ++ [category]) = some .directory ∧
      ∀ p, p ≠ base ++ [category] → t.get? p = s.tree.get? p := by
  obtain ⟨t, eq, rooted, there, others⟩ := h.toRooted.openCategory_eq hc (h.noFile category)
  refine ⟨t, eq, { rooted with once := h.once, noFile := fun c text => ?_, document := fun a => ?_ },
    there, others⟩
  · by_cases same : c = category
    · rw [same, there]
      simp
    · rw [others _ (by simpa using same)]
      exact h.noFile c text
  · rw [others _ (by simp), h.document]

theorem place_eq_iff :
    base ++ [b.category, b.name] = base ++ [a.category, a.name] ↔ b = a := by
  rw [List.append_cancel_left_eq]
  constructor
  · intro h
    injection h with hc h
    injection h with hn
    cases a
    cases b
    rw [Address.mk.injEq]
    exact ⟨hc, hn⟩
  · rintro rfl
    rfl

theorem write (h : Mirrors base s m) (text : Text)
    (hd : s.tree.get? (base ++ [a.category]) = some .directory) :
    Mirrors base { s with tree := s.tree.set (base ++ [a.category, a.name]) (.file text) }
      (m.set a text) := by
  have ne : base ++ [a.category, a.name] ≠ [] := by simp
  have inCategory : s.tree.get? (base ++ [a.category, a.name]).dropLast = some .directory := by
    simpa [List.dropLast_append_of_ne_nil] using hd
  exact {
    h.toRooted.set ne inCategory (by simp [h.document]) with
    once := nodup_keys_put h.once
    noFile := fun c text => by
      rw [FileTree.get?_set ne, if_neg (by simp)]
      exact h.noFile c text
    document := fun b => by
      rw [FileTree.get?_set ne, MemoryStore.find?_set, h.document]
      simp only [place_eq_iff]
      split <;> rfl }

theorem remove (h : Mirrors base s m) (hf : m.find? a = some text) :
    Mirrors base { s with tree := s.tree.without (base ++ [a.category, a.name]) }
      (m.without a) := by
  have ne : base ++ [a.category, a.name] ≠ [] := by simp
  have file : s.tree.get? (base ++ [a.category, a.name]) = some (.file text) := by
    rw [h.document, hf]
    rfl
  exact {
    h.toRooted.without ne file with
    once := nodup_keys_filter _ h.once
    noFile := fun c text => by
      rw [FileTree.get?_without ne, if_neg (by simp)]
      exact h.noFile c text
    document := fun b => by
      rw [FileTree.get?_without ne, MemoryStore.find?_without, h.document]
      simp only [place_eq_iff]
      split <;> rfl }

/-! #### What a request does -/

theorem put_eq (h : Mirrors base s m) (ha : a.check = .ok ()) :
    s.put a text =
      match m.find? a with
      | some _ =>
        .ok { s with tree := s.tree.set (base ++ [a.category, a.name]) (.file text) }
      | none => .error (.notFound a) := by
  rw [put, ha, FileTree.isFile, h.find_path ha]
  cases found : m.find? a with
  | none => rfl
  | some _ =>
    have place := h.resolve_path ha (h.get?_category found)
    have noDirectory : s.tree.get? (base ++ [a.category, a.name]) ≠ some .directory := by
      rw [h.document]
      simp
    rw [FileTree.write_of_get? place noDirectory]
    rfl

theorem delete_eq (h : Mirrors base s m) (ha : a.check = .ok ()) :
    s.delete a =
      match m.find? a with
      | some _ => .ok { s with tree := s.tree.without (base ++ [a.category, a.name]) }
      | none => .error (.notFound a) := by
  have there := h.find_path ha
  rw [delete, ha]
  cases found : m.find? a with
  | none =>
    rw [found] at there
    rw [FileTree.remove_of_find_error there]
    rfl
  | some _ =>
    have place := h.resolve_path ha (h.get?_category found)
    have file := h.document a
    rw [found] at file
    rw [FileTree.remove_of_get? place file]
    rfl

/-- Once the directory of the category is there, creating a document is up to the documents. -/
theorem create_of_category (h : Mirrors base s m) (text : Text) (ha : a.check = .ok ())
    (hd : s.tree.get? (base ++ [a.category]) = some .directory) :
    s.tree.create (s.path a) text =
      match m.find? a with
      | some _ => .error .alreadyExists
      | none => .ok (s.tree.set (base ++ [a.category, a.name]) (.file text)) := by
  rw [FileTree.create_of_resolve text (h.resolve_path ha hd), h.document]
  cases m.find? a <;> rfl

theorem create_eq (h : Mirrors base s m) (text : Text) (ha : a.check = .ok ()) :
    ∃ t, s.openCategory a.category = .ok { s with tree := t } ∧
      Mirrors base { s with tree := t } m ∧
      t.get? (base ++ [a.category]) = some .directory ∧
      (∀ p, p ≠ base ++ [a.category] → t.get? p = s.tree.get? p) ∧
      s.create a text =
        match m.find? a with
        | some _ => .error (.alreadyExists a)
        | none => .ok { s with tree := t.set (base ++ [a.category, a.name]) (.file text) } := by
  obtain ⟨hc, -⟩ := Address.check_eq_ok_iff.1 ha
  obtain ⟨t, eq, mirrors, there, others⟩ := h.openCategory_eq hc
  refine ⟨t, eq, mirrors, there, others, ?_⟩
  have created := mirrors.create_of_category text ha there
  rw [create, ha, eq]
  change ((t.create (s.path a) text).mapError _ >>= _) = _
  change t.create (s.path a) text = _ at created
  rw [created]
  cases m.find? a <;> rfl

theorem get_eq (h : Mirrors base s m) : s.get a = m.get a := by
  rcases ha : a.check with e | ⟨⟩
  · rw [get, MemoryStore.get, ha]
    rfl
  · have there := h.find_path ha
    rw [get, MemoryStore.get, ha]
    cases found : m.find? a with
    | none =>
      rw [found] at there
      rw [FileTree.read_of_find_error there]
      rfl
    | some text =>
      rw [found] at there
      rw [FileTree.read_of_find_ok there]
      rfl

theorem names_eq (h : Mirrors base s m) : s.names category = m.names category := by
  rcases hc : Address.checkSegment category with e | ⟨⟩
  · rw [names, MemoryStore.names, hc]
    rfl
  · obtain ⟨documents, eq, listed⟩ := m.names_lists h.once hc
    have valid := Address.checkSegment_eq_ok_iff.1 hc
    have document : ∀ n, s.tree.get? (base ++ [category] ++ [n]) =
        (m.find? ⟨category, n⟩).map .file := by
      intro n
      rw [List.append_assoc]
      exact h.document ⟨category, n⟩
    rw [names, hc, eq, FileTree.isDirectory, h.find_category valid]
    by_cases hd : s.tree.get? (base ++ [category]) = some .directory
    · obtain ⟨files, there, found⟩ :=
        FileTree.fileNames_lists h.suitable.toIsSound (h.resolve_category valid)
      have same : files = documents := by
        refine found.eq listed fun n => ?_
        rw [document]
        cases m.find? ⟨category, n⟩ <;> simp
      rw [if_pos hd, there, same]
      rfl
    · have none : documents = [] := by
        refine listed.eq (lists_nil (P := fun _ => False) fun _ => id) fun n => ?_
        rw [iff_false, Bool.not_eq_true, Option.isSome_eq_false_iff, Option.isNone_iff_eq_none]
        by_contra some
        obtain ⟨text, found⟩ := Option.ne_none_iff_exists'.1 some
        exact hd (h.get?_category found)
      rw [if_neg hd, none]
      rfl

/-- Two results that say the same: both stores refuse, or they still hold the same documents. -/
inductive Alike (base : Path) : Except StoreError DirectoryStore → Except StoreError MemoryStore → Prop
  | refused (e : StoreError) : Alike base (.error e) (.error e)
  | served {s : DirectoryStore} {m : MemoryStore} (h : Mirrors base s m) : Alike base (.ok s) (.ok m)

theorem put_alike (h : Mirrors base s m) : Alike base (s.put a text) (m.put a text) := by
  rcases ha : a.check with e | ⟨⟩
  · rw [put, MemoryStore.put, ha]
    exact .refused e
  · rw [h.put_eq ha, MemoryStore.put, ha]
    cases found : m.find? a with
    | none => exact .refused _
    | some _ => exact .served (h.write text (h.get?_category found))

theorem create_alike (h : Mirrors base s m) : Alike base (s.create a text) (m.create a text) := by
  rcases ha : a.check with e | ⟨⟩
  · rw [create, MemoryStore.create, ha]
    exact .refused e
  · obtain ⟨t, -, opened, there, -, eq⟩ := h.create_eq text ha
    rw [eq, MemoryStore.create, ha]
    cases m.find? a with
    | some _ => exact .refused _
    | none => exact .served (opened.write text there)

theorem delete_alike (h : Mirrors base s m) : Alike base (s.delete a) (m.delete a) := by
  rcases ha : a.check with e | ⟨⟩
  · rw [delete, MemoryStore.delete, ha]
    exact .refused e
  · rw [h.delete_eq ha, MemoryStore.delete, ha]
    cases found : m.find? a with
    | none => exact .refused _
    | some _ => exact .served (h.remove found)

theorem afterRefusal (h : Mirrors base s m) : Mirrors base (s.afterRefusal a) m := by
  rw [DirectoryStore.afterRefusal]
  rcases ha : a.check with e | ⟨⟩
  · exact h
  · obtain ⟨t, eq, opened, -⟩ := h.create_eq [] ha
    rw [eq]
    exact opened

/-- What comes after results that say the same. -/
theorem Alike.after {s' : Except StoreError DirectoryStore} {m' : Except StoreError MemoryStore}
    (h : Alike base s' m') (refused : Mirrors base s m) :
    Mirrors base (s'.toOption.getD s) (m'.toOption.getD m) := by
  cases h with
  | refused => exact refused
  | served h => exact h

theorem Alike.answer {s' : Except StoreError DirectoryStore} {m' : Except StoreError MemoryStore}
    (h : Alike base s' m') : StoreAnswer.of (fun _ => .done) s' = .of (fun _ => .done) m' := by
  cases h <;> rfl

/-- **One request.** Both stores say the same, … -/
theorem answer_eq (h : Mirrors base s m) (r : StoreRequest) : s.answer r = m.answer r := by
  cases r with
  | get a => rw [answer, MemoryStore.answer, h.get_eq]
  | put a text => exact h.put_alike.answer
  | create a text => exact h.create_alike.answer
  | delete a => exact h.delete_alike.answer
  | names category => rw [answer, MemoryStore.answer, h.names_eq]

/-- … and hold the same documents afterwards. -/
theorem after (h : Mirrors base s m) (r : StoreRequest) : Mirrors base (s.after r) (m.after r) := by
  cases r with
  | get a => exact h
  | put a text => exact h.put_alike.after h
  | create a text => exact h.create_alike.after h.afterRefusal
  | delete a => exact h.delete_alike.after h
  | names category => exact h

theorem afterAll (h : Mirrors base s m) (requests : List StoreRequest) :
    Mirrors base (s.afterAll requests) (m.afterAll requests) := by
  induction requests generalizing s m with
  | nil => exact h
  | cons r rs ih => exact ih (h.after r)

theorem answers_eq (h : Mirrors base s m) (requests : List StoreRequest) :
    s.answers requests = m.answers requests := by
  induction requests generalizing s m with
  | nil => rfl
  | cons r rs ih => rw [answers, MemoryStore.answers, h.answer_eq, ih (h.after r)]

end Mirrors

end DirectoryStore
end Folio
