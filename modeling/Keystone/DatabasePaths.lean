import Keystone.DatabaseIndexFiles

/-! # Where named data lies

A topic is a directory and an index a file, each found by joining its name to a directory of the
node. A path is the list of its components, with `.` and `..` resolved as the file system does. -/
namespace DatabasePaths

open DatabaseIndexFiles DecimalText List StorageInternalKey

def enter (path : List Bytes) (part : Bytes) : List Bytes :=
  if part = [] ∨ part = [dot] then path
  else if part = [dot, dot] then path.dropLast
  else path ++ [part]

/-- `Path::join`: an absolute name replaces the path. -/
def join (path : List Bytes) (name : Bytes) : List Bytes :=
  (name.splitOn slash).foldl enter (if name.head? = some slash then [] else path)

inductive Named where
  | topic (name : Bytes)
  | index (id : IndexId)
  deriving DecidableEq

/-- `ensure_cdc_topic` -/
def Named.cdc (table : Bytes) : Named := .topic (utf8 "__cdc_" ++ table)

def Named.dir (localDir : List Bytes) : Named → List Bytes
  | .topic _ => localDir ++ [utf8 "flux"]
  | .index _ => localDir ++ [utf8 "indexes"]

def Named.name : Named → Bytes
  | .topic name => name
  | .index id => id.fileName

def Named.path (localDir : List Bytes) (x : Named) : List Bytes := join (x.dir localDir) x.name

def Named.Inside (localDir : List Bytes) (x : Named) : Prop :=
  x.dir localDir <+: x.path localDir ∧ x.path localDir ≠ x.dir localDir

/-- Going down and up again below a directory, as long as the way does not lead out of it. -/
def walk : List Bytes → List Bytes → Option (List Bytes)
  | below, [] => some below
  | below, part :: rest =>
    if part = [] ∨ part = [dot] then walk below rest
    else if part = [dot, dot] then if below = [] then none else walk below.dropLast rest
    else walk (below ++ [part]) rest

/-- Where a name leads below its directory, unless it is absolute or leads out of it. -/
def parts (name : Bytes) : Option (List Bytes) :=
  if name.head? = some slash then none else walk [] (name.splitOn slash)

theorem enter_walk (h : walk below rest = some ps) (path : List Bytes) :
    rest.foldl enter (path ++ below) = path ++ ps := by
  induction rest generalizing below with
  | nil =>
    cases h
    rfl
  | cons part rest ih =>
    rw [walk] at h
    rw [foldl_cons, enter]
    split_ifs at h ⊢ with hsame hup hempty
    · exact ih h
    · rw [dropLast_append_of_ne_nil hempty]
      exact ih h
    · rw [append_assoc]
      exact ih h

theorem join_parts (h : parts name = some ps) (path : List Bytes) :
    join path name = path ++ ps := by
  unfold parts at h
  split_ifs at h with hhead
  rw [join, if_neg hhead]
  simpa using enter_walk h path

theorem parts_component (hslash : slash ∉ name) (hmem : underscore ∈ name) :
    parts name = some [name] := by
  have hsplit : name.splitOn slash = [name] :=
    splitOnP_eq_singleton fun c hc => by simpa using fun heq : c = slash => hslash (heq ▸ hc)
  have hhead : name.head? ≠ some slash := fun heq => hslash (mem_of_head? heq)
  have hname : (name ≠ [] ∧ name ≠ [dot]) ∧ name ≠ [dot, dot] := by
    refine ⟨⟨?_, ?_⟩, ?_⟩ <;> rintro rfl <;> revert hmem <;> decide
  simp [parts, hsplit, hhead, walk, hname]

/-- Two names that stay below their directories lie right inside them and apart from each other
exactly when each leads somewhere, and neither to where the other does or further in. -/
theorem names_lie_apart_iff (localDir : List Bytes) {x y : Named} (hx : parts x.name = some xs)
    (hy : parts y.name = some ys) :
    ((x.Inside localDir ∧ y.Inside localDir ∧
        (x ≠ y → ¬ x.path localDir <+: y.path localDir ∧ ¬ y.path localDir <+: x.path localDir)) ↔
      xs ≠ [] ∧ ys ≠ [] ∧ (x ≠ y → x.dir localDir = y.dir localDir → ¬ xs <+: ys ∧ ¬ ys <+: xs)) ∧
      ∀ table, slash ∉ table → parts (Named.cdc table).name = some [(Named.cdc table).name] := by
  have hxpath : x.path localDir = x.dir localDir ++ xs := join_parts hx _
  have hypath : y.path localDir = y.dir localDir ++ ys := join_parts hy _
  have hlength : (x.dir localDir).length = (y.dir localDir).length := by
    cases x <;> cases y <;> simp [Named.dir]
  have hnested {a b : List Bytes} (hlen : a.length = b.length) (as bs : List Bytes) :
      a ++ as <+: b ++ bs ↔ a = b ∧ as <+: bs := by
    constructor
    · rintro ⟨rest, heq⟩
      rw [append_assoc] at heq
      obtain ⟨hdir, hrest⟩ := append_inj heq hlen
      exact ⟨hdir, rest, hrest⟩
    · rintro ⟨rfl, h⟩
      exact (prefix_append_right_inj _).mpr h
  refine ⟨?_,
    fun table h => parts_component (by simp only [Named.cdc, Named.name, mem_append, h]; decide)
    (mem_append_left _ (by decide))⟩
  rw [Named.Inside, Named.Inside, hxpath, hypath, hnested hlength, hnested hlength.symm]
  simp only [prefix_append, ne_eq, append_right_eq_self, true_and]
  constructor
  · rintro ⟨hxs, hys, hapart⟩
    refine ⟨hxs, hys, fun hne hdir => ?_⟩
    exact ⟨fun h => (hapart hne).1 ⟨hdir, h⟩, fun h => (hapart hne).2 ⟨hdir.symm, h⟩⟩
  · rintro ⟨hxs, hys, hapart⟩
    refine ⟨hxs, hys, fun hne => ⟨fun h => (hapart hne h.1).1 h.2,
      fun h => (hapart hne h.1.symm).2 h.2⟩⟩

/-- Two indexes whose tables have underscores, and a topic with slashes. -/
theorem names_lie_apart_iff_indexes :
    let items : Named := .index ⟨.btree, utf8 "order_items", utf8 "id"⟩
    let users : Named := .index ⟨.btree, utf8 "users", utf8 "name"⟩
    let topic : Named := .topic (utf8 "a/./b")
    items.path [] = [utf8 "indexes", utf8 "order_items_id"] ∧ ¬ items.path [] <+: users.path [] ∧
      topic.Inside [] ∧ ¬ topic.path [] <+: users.path [] := by
  intro items users topic
  have hitems : parts items.name = some [utf8 "order_items_id"] := rfl
  have husers : parts users.name = some [utf8 "users_name"] := rfl
  have htopic : parts topic.name = some [utf8 "a", utf8 "b"] := rfl
  have hindexes := (names_lie_apart_iff [] hitems husers).1.mpr (by decide)
  have hkinds := (names_lie_apart_iff [] htopic husers).1.mpr (by decide)
  exact ⟨rfl, (hindexes.2.2 (by decide)).1, hkinds.1, (hkinds.2.2 (by decide)).1⟩

/-- A parent, an absolute path, a table with slashes, a topic inside another and two columns with
one file. -/
theorem names_escape :
    let path : Named → List Bytes := Named.path [utf8 "data"]
    path (.topic (utf8 "..")) = [utf8 "data"] ∧ path (.topic (utf8 "/etc")) = [utf8 "etc"] ∧
      path (.cdc (utf8 "/../../wal")) = [utf8 "data", utf8 "wal"] ∧
      path (.topic (utf8 "a")) <+: path (.topic (utf8 "a/b")) ∧
      path (.topic (utf8 "a")) = path (.topic (utf8 "./a")) ∧
      path (.index ⟨.btree, utf8 "a_b", utf8 "c"⟩) =
        path (.index ⟨.btree, utf8 "a", utf8 "b_c"⟩) := by
  decide

end DatabasePaths
