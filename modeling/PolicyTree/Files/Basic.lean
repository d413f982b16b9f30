import PolicyTree.Error
import PolicyTree.Text.Fields

namespace PolicyTree

/-- A place in a tree of files, by the names that lead there from the root. -/
abbrev Place : Type :=
  List String

namespace Place

/-- The place that one field of a path leads to, whether or not it is there. The root lies in
itself. -/
def enter (here : Place) (field : String) : Place :=
  if field == "" || field == "." then here
  else if field == ".." then here.dropLast
  else here ++ [field]

/-- The place that some fields lead to, after all places on the way. -/
def trail (here : Place) : List String → List Place
  | [] => [here]
  | field :: fields => here :: trail (here.enter field) fields

end Place

/-- The files with their contents, the directories that are there besides those of files, and the
directory in which relative paths begin. -/
structure FileSystem where
  files : List (Place × ByteArray)
  directories : List Place
  current : Place := []

namespace FileSystem

/-- No files, and a current directory that paths can climb out of. -/
def empty : FileSystem where
  files := []
  directories := []
  current := ["current"]

def start (fs : FileSystem) (p : Path) : Place :=
  if p.isAbsolute then [] else fs.current

def places (fs : FileSystem) : List Place :=
  fs.files.map Prod.fst

def content? (fs : FileSystem) (place : Place) : Option ByteArray :=
  (fs.files.find? fun f => f.1 == place).map Prod.snd

def isFile (fs : FileSystem) (place : Place) : Bool :=
  (fs.content? place).isSome

/-- A place is a directory if it was made one, or if something or the current directory lies below
it. -/
def isDirectory (fs : FileSystem) (place : Place) : Bool :=
  place.isPrefixOf fs.current || fs.directories.any place.isPrefixOf
    || (fs.places.any fun p => place.isPrefixOf p && p != place)

/-- The longest name of a file, and one more than the longest path, in bytes. -/
def maxNameBytes : Nat := 255
def maxPathBytes : Nat := 4096

/-- One step of a walk. Only a directory leads on, if only to itself. -/
def step (fs : FileSystem) (here : Place) (field : String) : Except FileFault Place :=
  if fs.isFile here then .error .notADirectory
  else if maxNameBytes < field.utf8ByteSize then .error .nameTooLong
  else
    let next := here.enter field
    if fs.isFile next || fs.isDirectory next then .ok next else .error .missing

def walk (fs : FileSystem) (p : Path) : Except FileFault Place :=
  if p.text.toList.contains '\x00' then .error .nulInName
  else if p.text.isEmpty then .error .missing
  else if maxPathBytes ≤ p.text.utf8ByteSize then .error .nameTooLong
  else (Text.fields '/' p.text).foldlM fs.step (fs.start p)

def leadsToDirectory (fs : FileSystem) (p : Path) : Bool :=
  match fs.walk p with
  | .ok place => !fs.isFile place
  | .error _ => false

/-- The text of the file that a path leads to, and its place, by which the file is known however
it is reached. -/
def read (fs : FileSystem) (p : Path) : Except FileFault (Place × String) :=
  match fs.walk p with
  | .error fault => .error fault
  | .ok place =>
    match fs.content? place with
    | none => .error .isADirectory
    | some bytes =>
      match String.fromUTF8? bytes with
      | some text => .ok (place, text)
      | none => .error .notText

/-- Makes a directory, and every directory that its path passes through. -/
def makeDirectory (fs : FileSystem) (p : Path) : FileSystem :=
  { fs with directories := fs.directories ++ (fs.start p).trail (Text.fields '/' p.text) }

/-- Writes a file, and makes the directories that its path passes through. -/
def write (fs : FileSystem) (p : Path) (content : ByteArray) : FileSystem :=
  let place := (Text.fields '/' p.text).foldl Place.enter (fs.start p)
  let others := fs.files.filter fun f => f.1 != place
  { fs.makeDirectory p.parent with files := others ++ [(place, content)] }

/-- A file is read by its name, from the root, and through the directory above. -/
example :
    let fs := empty.write ⟨"zones/size.json"⟩ "4".toUTF8
    ["zones/size.json", "/current/zones/size.json", "../current/./zones/size.json"].all
      fun text => (fs.read ⟨text⟩).toOption == some (["current", "zones", "size.json"], "4") := by
  decide +kernel

theorem mem_places_of_content? {fs : FileSystem} {place : Place} {bytes : ByteArray}
    (h : fs.content? place = some bytes) : place ∈ fs.places := by
  obtain ⟨f, hf, -⟩ := Option.map_eq_some_iff.1 h
  have he : f.1 = place := by simpa using List.find?_some hf
  exact he ▸ List.mem_map_of_mem (List.mem_of_find?_eq_some hf)

theorem mem_places_of_read {fs : FileSystem} {p : Path} {place : Place} {text : String}
    (h : fs.read p = .ok (place, text)) : place ∈ fs.places := by
  rw [read] at h
  cases hwalk : fs.walk p with
  | error fault =>
    rw [hwalk] at h
    cases h
  | ok found =>
    cases hbytes : fs.content? found with
    | none =>
      simp only [hwalk, hbytes] at h
      cases h
    | some bytes =>
      simp only [hwalk, hbytes] at h
      split at h
      · obtain ⟨rfl, rfl⟩ := Prod.mk.inj (Except.ok.inj h)
        exact mem_places_of_content? hbytes
      · cases h

def unseen (fs : FileSystem) (seen : List Place) : Nat :=
  (fs.places.filter fun p => !seen.contains p).length

theorem unseen_cons_lt {fs : FileSystem} {seen : List Place} {place : Place}
    (hp : place ∈ fs.places) (hs : place ∉ seen) : fs.unseen (place :: seen) < fs.unseen seen := by
  have hsplit : (fs.places.filter fun p => !(place :: seen).contains p)
      = (fs.places.filter fun p => !seen.contains p).filter (· != place) := by
    rw [List.filter_filter]
    congr 1
    funext p
    by_cases h : p = place <;> simp [h]
  rw [unseen, hsplit, unseen, List.length_filter_lt_length_iff_exists]
  exact ⟨place, by simp [hp, hs], by simp⟩

end FileSystem

end PolicyTree
