import Folio.Proofs.Storage.Agreement

/-!
# Where requests reach, and what histories answer

A store in a directory hands paths to the file system that lie at most two steps below its root. What
it answers depends on what these paths lead to and on nothing else, and nothing else is changed.

* `DirectoryStore.Confined`: a request depends on its own paths only, and changes nothing else;
* `DirectoryStore.serves_as_memory`: a store in an empty directory answers every sequence of requests
  as an empty one in memory does, and every request is confined.
-/

namespace Folio

namespace StoreRequest

/-- The paths of a request, from the root of the store. -/
def parts : StoreRequest → List (List String)
  | get a | put a _ | delete a => [[a.category, a.name]]
  | create a _ => [[], [a.category], [a.category, a.name]]
  | names category => [[category]]

theorem valid_of_mem_parts {r : StoreRequest} {ps : List String} (hr : r.check = .ok ())
    (h : ps ∈ r.parts) :
    ps.length ≤ 2 ∧ ∀ part ∈ ps, Address.isValidSegment part = true := by
  cases r
  case names category =>
    have valid := Address.checkSegment_eq_ok_iff.1 hr
    obtain rfl := List.mem_singleton.1 h
    simp [valid]
  case create a text =>
    obtain ⟨hc, hn⟩ := Address.check_eq_ok_iff.1 hr
    simp only [parts, List.mem_cons, List.not_mem_nil, or_false] at h
    rcases h with rfl | rfl | rfl <;> simp [hc, hn]
  all_goals
    obtain ⟨hc, hn⟩ := Address.check_eq_ok_iff.1 hr
    obtain rfl := List.mem_singleton.1 h
    simp [hc, hn]

end StoreRequest

namespace DirectoryStore

variable {base : Path} {s : DirectoryStore} {m : MemoryStore} {a b : Address} {text : Text}
  {category : String}

/-! ### Where a request reaches -/

/-- The paths that a request hands to the file system. -/
def touched (s : DirectoryStore) (r : StoreRequest) : List Path :=
  match r.check with
  | .error _ => []
  | .ok _ => r.parts.map (s.root ++ ·)

/-- A request is confined to its paths: each of them is the root with up to two parts that lead one
step down each, the answer depends on nothing but what these paths lead to, and nothing is changed
that they do not lead to. -/
structure Confined (s : DirectoryStore) (r : StoreRequest) : Prop where
  paths : ∀ p ∈ s.touched r, ∃ parts : List String, parts.length ≤ 2 ∧
    (∀ part ∈ parts, Address.IsPart part) ∧ p = s.root ++ parts
  reads : ∀ t : FileTree, t.IsSuitable → (∀ p ∈ s.touched r, t.find p = s.tree.find p) →
    (∀ category, r = .names category →
      t.fileNames (s.categoryPath category) = s.tree.fileNames (s.categoryPath category)) →
    { s with tree := t }.answer r = s.answer r
  writes : ∀ p, (∀ q ∈ s.touched r, (s.after r).tree.resolve q ≠ .ok p) →
    (s.after r).tree.get? p = s.tree.get? p

theorem touched_of_check {r : StoreRequest} (hr : r.check = .ok ()) :
    s.touched r = r.parts.map (s.root ++ ·) := by
  rw [touched, hr]

theorem paths_of_touched {r : StoreRequest} {p : Path} (h : p ∈ s.touched r) :
    ∃ parts : List String, parts.length ≤ 2 ∧ (∀ part ∈ parts, Address.IsPart part) ∧
      p = s.root ++ parts := by
  rcases hr : r.check with e | ⟨⟩
  · rw [touched, hr] at h
    cases h
  · rw [touched_of_check hr, List.mem_map] at h
    obtain ⟨parts, mem, rfl⟩ := h
    obtain ⟨short, valid⟩ := r.valid_of_mem_parts hr mem
    exact ⟨parts, short, fun part hp => Address.isPart_of_isValidSegment (valid part hp), rfl⟩

/-- The answer to a request to create a document is what is found at its path. -/
theorem Rooted.create_answer (h : Rooted base s) (ha : a.check = .ok ())
    (hc : s.tree.find (s.categoryPath a.category) = .ok .directory ∨
      s.tree.find (s.categoryPath a.category) = .error .notFound) :
    s.answer (.create a text) =
      match s.tree.find (s.path a) with
      | .ok _ => .refused (.alreadyExists a)
      | .error _ => .done := by
  obtain ⟨valid, -⟩ := Address.check_eq_ok_iff.1 ha
  rw [FileTree.find_of_resolve (h.resolve_category valid)] at hc
  have noFile : ∀ text, s.tree.get? (base ++ [a.category]) ≠ some (.file text) := by
    intro text found
    rw [found] at hc
    rcases hc with hc | hc <;> cases hc
  obtain ⟨t, eq, rooted, there, others⟩ := h.openCategory_eq valid noFile
  have place := rooted.resolve_path ha there
  have found : s.tree.find (s.path a) =
      (t.get? (base ++ [a.category, a.name])).elim (.error .notFound) .ok := by
    rw [others _ (by simp)]
    by_cases hd : s.tree.get? (base ++ [a.category]) = none
    · rw [FileTree.find_of_resolve_error (h.resolve_path_of_none ha hd)]
      cases below : s.tree.get? (base ++ [a.category, a.name]) with
      | none => rfl
      | some e =>
        have inDirectory := h.suitable.inDirectory (base ++ [a.category]) a.name (by simp [below])
        rw [hd] at inDirectory
        cases inDirectory
    · have isDirectory : s.tree.get? (base ++ [a.category]) = some .directory := by
        rcases found : s.tree.get? (base ++ [a.category]) with _ | _ | text
        · exact absurd found hd
        · rfl
        · exact absurd found (noFile text)
      rw [FileTree.find_of_resolve (h.resolve_path ha isDirectory)]
      cases s.tree.get? (base ++ [a.category, a.name]) <;> rfl
  have created := FileTree.create_of_resolve text place
  rw [answer, create, ha, eq, found]
  change StoreAnswer.of _ ((t.create (s.path a) text).mapError _ >>= _) = _
  change t.create (s.path a) text = _ at created
  rw [created]
  cases t.get? (base ++ [a.category, a.name]) <;> rfl

theorem Mirrors.find_category_cases (h : Mirrors base s m)
    (hc : Address.isValidSegment category = true) :
    s.tree.find (s.categoryPath category) = .ok .directory ∨
      s.tree.find (s.categoryPath category) = .error .notFound := by
  rw [h.find_category hc]
  split
  · exact .inl rfl
  · exact .inr rfl

/-- Overwriting a document is up to whether its path leads to a file. -/
theorem put_answer (ha : a.check = .ok ()) :
    s.answer (.put a text) =
      if s.tree.isFile (s.path a) then .done else .refused (.notFound a) := by
  rw [answer, put, ha]
  by_cases hf : s.tree.isFile (s.path a) = true
  · obtain ⟨found, there⟩ : ∃ old, s.tree.find (s.path a) = .ok (.file old) := by
      rw [FileTree.isFile] at hf
      split at hf
      · exact ⟨_, ‹_›⟩
      · cases hf
    obtain ⟨q, hr, file⟩ := FileTree.find_eq_ok_iff.1 there
    rw [if_pos hf, FileTree.write_of_get? hr (by simp [file])]
    simp only [hf, if_true]
    rfl
  · rw [if_neg hf]
    simp only [hf]
    rfl

/-- Removing a document is up to what its path leads to, when that is not a directory. -/
theorem delete_answer (ha : a.check = .ok ()) (hd : s.tree.find (s.path a) ≠ .ok .directory) :
    s.answer (.delete a) =
      match s.tree.find (s.path a) with
      | .ok _ => .done
      | .error e => .refused (storeError .notFound (.notFound a) e) := by
  rw [answer, delete, ha]
  rcases found : s.tree.find (s.path a) with e | _ | old
  · rw [FileTree.remove_of_find_error found]
    rfl
  · exact absurd found hd
  · obtain ⟨q, hr, file⟩ := FileTree.find_eq_ok_iff.1 found
    rw [FileTree.remove_of_get? hr file]
    rfl

/-- An answer depends on what the paths of the request lead to, and on nothing else. -/
theorem Mirrors.reads (h : Mirrors base s m) (r : StoreRequest) {t : FileTree} (ht : t.IsSuitable)
    (same : ∀ p ∈ s.touched r, t.find p = s.tree.find p)
    (listed : ∀ category, r = .names category →
      t.fileNames (s.categoryPath category) = s.tree.fileNames (s.categoryPath category)) :
    { s with tree := t }.answer r = s.answer r := by
  rcases hr : r.check with e | ⟨⟩
  · cases r <;> simp only [StoreRequest.check] at hr <;>
      simp only [answer, get, put, create, delete, names, hr] <;> rfl
  · rw [touched_of_check hr, List.forall_mem_map] at same
    cases r with
    | get a =>
      have path : t.find (s.path a) = s.tree.find (s.path a) := same _ List.mem_cons_self
      have read : t.read (s.path a) = s.tree.read (s.path a) := by
        rw [FileTree.read, FileTree.read, path]
      change a.check = _ at hr
      simp only [answer, get, hr]
      change StoreAnswer.of _ ((t.read (s.path a)).mapError _) = _
      rw [read]
      rfl
    | put a text =>
      have path : t.find (s.path a) = s.tree.find (s.path a) := same _ List.mem_cons_self
      rw [put_answer hr, put_answer hr]
      change (if t.isFile (s.path a) then _ else _) = _
      rw [FileTree.isFile, path]
      rfl
    | create a text =>
      have root : t.find s.root = s.tree.find s.root := by
        simpa using same [] List.mem_cons_self
      have category : t.find (s.categoryPath a.category) =
          s.tree.find (s.categoryPath a.category) := same [a.category] (by simp [StoreRequest.parts])
      have path : t.find (s.path a) = s.tree.find (s.path a) :=
        same [a.category, a.name] (by simp [StoreRequest.parts])
      have isDirectory := FileTree.find_eq_ok_iff.2 ⟨base, h.resolve_root, h.isDirectory⟩
      obtain ⟨base', resolve_root, isDirectory'⟩ := FileTree.find_eq_ok_iff.1 (root.trans isDirectory)
      have rooted : Rooted base' { s with tree := t } := ⟨ht, resolve_root, isDirectory'⟩
      have cases := h.find_category_cases (Address.check_eq_ok_iff.1 hr).1
      rw [h.toRooted.create_answer hr cases, rooted.create_answer hr (by rwa [← category] at cases)]
      change (match t.find (s.path a) with | .ok _ => _ | .error _ => _) = _
      rw [path]
    | delete a =>
      have path : t.find (s.path a) = s.tree.find (s.path a) := same _ List.mem_cons_self
      have noDirectory : s.tree.find (s.path a) ≠ .ok .directory := by
        rw [h.find_path hr]
        cases m.find? a <;> simp
      rw [delete_answer hr noDirectory, delete_answer hr (by rwa [← path] at noDirectory)]
      change (match t.find (s.path a) with | .ok _ => _ | .error _ => _) = _
      rw [path]
    | names category =>
      have path : t.find (s.categoryPath category) = s.tree.find (s.categoryPath category) :=
        same _ List.mem_cons_self
      change Address.checkSegment category = _ at hr
      simp only [answer, names, hr]
      change StoreAnswer.of _ (if t.isDirectory (s.categoryPath category) then
        (t.fileNames (s.categoryPath category)).mapError _ else _) = _
      rw [FileTree.isDirectory, path, listed category rfl]
      rfl

/-! #### What a request changes -/

/-- A request for a place that is not allowed does nothing. -/
theorem after_of_refused {r : StoreRequest} {e : StoreError} (hr : r.check = .error e) :
    s.after r = s := by
  cases r <;> simp only [StoreRequest.check] at hr <;>
    simp only [DirectoryStore.after, DirectoryStore.afterRefusal, put, create, delete, hr] <;> rfl

/-- What the path of a category does not lead to is not the directory of the category. -/
theorem Rooted.ne_category (h : Rooted base s) (valid : Address.isValidSegment category = true)
    {p : Path} (avoids : s.tree.resolve (s.categoryPath category) ≠ .ok p) :
    p ≠ base ++ [category] := by
  rintro rfl
  exact avoids (h.resolve_category valid)

/-- What the path of a document does not lead to is not the place of the document. -/
theorem Rooted.ne_place (h : Rooted base s) (ha : a.check = .ok ())
    (there : s.tree.get? (base ++ [a.category]) = some .directory)
    {p : Path} (avoids : s.tree.resolve (s.path a) ≠ .ok p) :
    p ≠ base ++ [a.category, a.name] := by
  rintro rfl
  exact avoids (h.resolve_path ha there)

theorem Mirrors.put_writes (h : Mirrors base s m) (ha : a.check = .ok ()) {p : Path}
    (avoids : (s.after (.put a text)).tree.resolve (s.path a) ≠ .ok p) :
    (s.after (.put a text)).tree.get? p = s.tree.get? p := by
  rw [DirectoryStore.after, h.put_eq ha] at avoids ⊢
  cases found : m.find? a with
  | none => rfl
  | some old =>
    rw [found] at avoids
    have there := h.get?_category found
    have kept : (s.tree.set (base ++ [a.category, a.name]) (.file text)).get?
        (base ++ [a.category]) = some .directory := by
      rw [FileTree.get?_set (by simp), if_neg (by simp), there]
    have ne := (h.write text there).ne_place ha kept avoids
    exact (FileTree.get?_set (by simp)).trans (if_neg ne)

theorem Mirrors.delete_writes (h : Mirrors base s m) (ha : a.check = .ok ()) {p : Path}
    (avoids : (s.after (.delete a)).tree.resolve (s.path a) ≠ .ok p) :
    (s.after (.delete a)).tree.get? p = s.tree.get? p := by
  rw [DirectoryStore.after, h.delete_eq ha] at avoids ⊢
  cases found : m.find? a with
  | none => rfl
  | some old =>
    rw [found] at avoids
    have there := h.get?_category found
    have kept : (s.tree.without (base ++ [a.category, a.name])).get? (base ++ [a.category]) =
        some .directory := by
      rw [FileTree.get?_without (by simp), if_neg (by simp), there]
    have ne := (h.remove found).ne_place ha kept avoids
    exact (FileTree.get?_without (by simp)).trans (if_neg ne)

/-- Creating a document may make the directory of its category, also when it is refused. -/
theorem Mirrors.create_writes (h : Mirrors base s m) (ha : a.check = .ok ()) {p : Path}
    (avoids_category : (s.after (.create a text)).tree.resolve (s.categoryPath a.category) ≠ .ok p)
    (avoids_place : (s.after (.create a text)).tree.resolve (s.path a) ≠ .ok p) :
    (s.after (.create a text)).tree.get? p = s.tree.get? p := by
  obtain ⟨valid, -⟩ := Address.check_eq_ok_iff.1 ha
  obtain ⟨t, eq, opened, there, others, created⟩ := h.create_eq text ha
  rw [DirectoryStore.after, created, DirectoryStore.afterRefusal, ha, eq]
    at avoids_category avoids_place ⊢
  cases found : m.find? a with
  | some old =>
    rw [found] at avoids_category
    exact others p (opened.ne_category valid avoids_category)
  | none =>
    rw [found] at avoids_category avoids_place
    have written := opened.write text there
    have kept : (t.set (base ++ [a.category, a.name]) (.file text)).get?
        (base ++ [a.category]) = some .directory := by
      rw [FileTree.get?_set (by simp), if_neg (by simp), there]
    have ne_place := written.ne_place ha kept avoids_place
    have ne_category := written.ne_category valid avoids_category
    exact ((FileTree.get?_set (by simp)).trans (if_neg ne_place)).trans (others p ne_category)

/-- A request changes nothing that its paths do not lead to. -/
theorem Mirrors.writes (h : Mirrors base s m) (r : StoreRequest) {p : Path}
    (hp : ∀ q ∈ s.touched r, (s.after r).tree.resolve q ≠ .ok p) :
    (s.after r).tree.get? p = s.tree.get? p := by
  rcases hr : r.check with e | ⟨⟩
  · rw [after_of_refused hr]
  · rw [touched_of_check hr, List.forall_mem_map] at hp
    cases r with
    | get a => rfl
    | names category => rfl
    | put a text => exact h.put_writes hr (hp _ List.mem_cons_self)
    | delete a => exact h.delete_writes hr (hp _ List.mem_cons_self)
    | create a text =>
      exact h.create_writes hr (hp [a.category] (by simp [StoreRequest.parts]))
        (hp [a.category, a.name] (by simp [StoreRequest.parts]))

theorem Mirrors.confined (h : Mirrors base s m) (r : StoreRequest) : s.Confined r where
  paths _ := paths_of_touched
  reads _ := h.reads r
  writes _ := h.writes r

/-- A path leads below the root, as far as it has parts. -/
theorem Rooted.resolve_path_eq (h : Rooted base s) (ha : a.check = .ok ()) {p : Path}
    (hp : s.tree.resolve (s.path a) = .ok p) : p = base ++ [a.category, a.name] := by
  have hd : s.tree.get? (base ++ [a.category]) = some .directory := by
    obtain ⟨hc, hn⟩ := Address.check_eq_ok_iff.1 ha
    rw [path, h.resolve_below (by simpa using ⟨hc, hn⟩),
      FileTree.walk_step h.isDirectory (h.suitable.isStep hc), FileTree.walk] at hp
    rcases found : s.tree.get? (base ++ [a.category]) with _ | _ | text
    · rw [found] at hp
      cases hp
    · rfl
    · rw [found] at hp
      cases hp
  rw [h.resolve_path ha hd] at hp
  cases hp
  rfl

/-- Allowed addresses that differ have paths that differ, and that lead to different places. -/
theorem Rooted.path_ne (h : Rooted base s) (ha : a.check = .ok ()) (hb : b.check = .ok ())
    (ne : a ≠ b) :
    s.path a ≠ s.path b ∧
      ∀ p, s.tree.resolve (s.path a) = .ok p → s.tree.resolve (s.path b) ≠ .ok p := by
  refine ⟨fun same => ne (Mirrors.place_eq_iff.1 same), fun p leads leads' => ne ?_⟩
  rw [← Mirrors.place_eq_iff (b := a) (a := b), ← h.resolve_path_eq ha leads,
    h.resolve_path_eq hb leads']

/-! ### Histories -/

section Root

variable {s' : DirectoryStore}

theorem root_of_put (h : s.put a text = .ok s') : s'.root = s.root := by
  simp only [put, bind, Except.bind, pure, Except.pure] at h
  repeat' split at h
  all_goals cases h
  rfl

theorem root_of_delete (h : s.delete a = .ok s') : s'.root = s.root := by
  simp only [delete, bind, Except.bind, pure, Except.pure] at h
  repeat' split at h
  all_goals cases h
  rfl

theorem root_of_openCategory (h : s.openCategory category = .ok s') : s'.root = s.root := by
  simp only [openCategory, bind, Except.bind, pure, Except.pure] at h
  repeat' split at h
  all_goals cases h
  rfl

theorem root_of_create (h : s.create a text = .ok s') : s'.root = s.root := by
  simp only [create, bind, Except.bind, pure, Except.pure] at h
  repeat' split at h
  all_goals cases h
  next opened eq _ _ _ =>
    have stays : opened.root = s.root := root_of_openCategory eq
    exact stays

theorem root_getD {result : Except StoreError DirectoryStore} {other : DirectoryStore}
    (h : ∀ s', result = .ok s' → s'.root = s.root) (ho : other.root = s.root) :
    (result.toOption.getD other).root = s.root := by
  cases result with
  | error => exact ho
  | ok s' => exact h s' rfl

theorem root_after (s : DirectoryStore) (r : StoreRequest) : (s.after r).root = s.root := by
  cases r with
  | get a => rfl
  | put a text => exact root_getD (fun _ => root_of_put) rfl
  | create a text =>
    refine root_getD (fun _ => root_of_create) ?_
    rw [afterRefusal]
    split
    · exact root_getD (fun _ => root_of_openCategory) rfl
    · rfl
  | delete a => exact root_getD (fun _ => root_of_delete) rfl
  | names category => rfl

theorem root_afterAll (s : DirectoryStore) (requests : List StoreRequest) :
    (s.afterAll requests).root = s.root := by
  induction requests generalizing s with
  | nil => rfl
  | cons r rs ih => exact (ih (s.after r)).trans (root_after s r)

end Root

/-- A store in an empty directory. -/
structure IsFresh (s : DirectoryStore) : Prop where
  suitable : s.tree.IsSuitable
  empty : ∃ base, s.tree.resolve s.root = .ok base ∧ s.tree.get? base = some .directory ∧
    ∀ part, s.tree.get? (base ++ [part]) = none

theorem IsFresh.exists_mirrors (h : s.IsFresh) : ∃ base, Mirrors base s {} := by
  obtain ⟨base, resolve_root, isDirectory, empty⟩ := h.empty
  refine ⟨base, ⟨h.suitable, resolve_root, isDirectory⟩, .nil, ?_, ?_⟩
  · intro c text
    simp [empty]
  · intro a
    by_contra there
    have inDirectory := h.suitable.inDirectory (base ++ [a.category]) a.name
      (by simpa [MemoryStore.find?] using there)
    rw [empty] at inDirectory
    cases inDirectory

/-- **A store in an empty directory serves as an empty one in memory.** It answers every sequence
of requests alike; each request stays with its own paths, which lie below the root; and documents
that differ have paths that differ. -/
theorem serves_as_memory (h : s.IsFresh) (requests : List StoreRequest) :
    s.answers requests = ({} : MemoryStore).answers requests ∧
      (∀ done r rest, requests = done ++ r :: rest → (s.afterAll done).Confined r) ∧
      ∀ a b : Address, a.check = .ok () → b.check = .ok () → a ≠ b →
        s.path a ≠ s.path b ∧
          ∀ p, (s.afterAll requests).tree.resolve (s.path a) = .ok p →
            (s.afterAll requests).tree.resolve (s.path b) ≠ .ok p := by
  obtain ⟨base, mirrors⟩ := h.exists_mirrors
  refine ⟨mirrors.answers_eq requests, ?_, ?_⟩
  · rintro done r rest -
    exact (mirrors.afterAll done).confined r
  · intro a b ha hb ne
    have apart := (mirrors.afterAll requests).toRooted.path_ne ha hb ne
    rwa [path, path, root_afterAll] at apart

/-- The store in the directory `content` of a tree that has nothing else. -/
def content : DirectoryStore where
  root := ["content"]
  tree := { entries := [(["content"], .directory)] }

theorem content_isFresh : content.IsFresh where
  suitable := {
    once := List.nodup_singleton _
    inDirectory := fun p part there => by
      cases p with
      | nil => rfl
      | cons x xs =>
        refine absurd ?_ there
        cases xs <;> simp [content, FileTree.get?, List.lookup_cons]
    takes := fun _ _ => ⟨rfl, rfl⟩ }
  empty := ⟨["content"], by decide, by decide, fun part => by
    simp [content, FileTree.get?, List.lookup_cons]⟩

/-- A document is created, refused when it is created again, removed, and found no more. -/
theorem content_serves_as_memory :
    let intro : Address := ⟨"posts", "intro.md"⟩
    let requests : List StoreRequest :=
      [.create intro ['a'], .create intro ['b'], .names "posts", .delete intro, .get intro,
        .get ⟨"posts", "../etc"⟩]
    content.IsFresh ∧ content.answers requests = ({} : MemoryStore).answers requests ∧
      content.answers requests =
        [.done, .refused (.alreadyExists intro), .names ["intro.md"], .done,
          .refused (.notFound intro), .refused (.invalidName "../etc")] := by
  intro intro requests
  have same := (serves_as_memory content_isFresh requests).1
  exact ⟨content_isFresh, same, same.trans (by decide +kernel)⟩

end DirectoryStore
end Folio
