/-
# Lkv.Theory.Path — paths as raw text

A path is the text that the system is given.  The separators cut it into pieces; an empty piece
and `.` are no components of it, but they do count for the system: a path that ends in a
separator asks for a directory.  The last piece is looked up in the directory that the pieces
before it lead to.

A suffix without a separator that is pushed onto a path changes its last piece only
(`pieces_push`).  The parent of a path is made of the pieces in front of its last component: it
leads to the directory in which a proper last piece is looked up, except for a bare name, whose
parent is the empty text and leads nowhere (`parent_of_name`).
-/
import Mathlib.Data.List.DropRight

namespace Lkv.Theory

set_option autoImplicit false

structure Path where
  text : List Char
  deriving DecidableEq

namespace Path

variable {path : Path} {piece : List Char} {front : List (List Char)}

/-! ## Pieces -/

/-- The path with these pieces. -/
def join (pieces : List (List Char)) : Path := ⟨['/'].intercalate pieces⟩

/-- What stands between the separators; a path has at least one piece. -/
def pieces (path : Path) : List (List Char) := path.text.splitOn '/'

theorem pieces_ne_nil (path : Path) : path.pieces ≠ [] := List.splitOn_ne_nil '/' path.text

/-- The pieces in front of the last one. -/
def lead (path : Path) : List (List Char) := path.pieces.dropLast

/-- The last piece. -/
def name (path : Path) : List Char := path.pieces.getLast path.pieces_ne_nil

theorem lead_append_name (path : Path) : path.lead ++ [path.name] = path.pieces :=
  List.dropLast_append_getLast path.pieces_ne_nil

theorem join_pieces (path : Path) : join path.pieces = path :=
  congrArg Path.mk (List.intercalate_splitOn '/')

theorem pieces_join {pieces : List (List Char)} (some : pieces ≠ []) (free : ∀ piece ∈ pieces, '/' ∉ piece) :
    (join pieces).pieces = pieces :=
  List.splitOn_intercalate '/' free some

theorem not_separator_of_mem_splitOn {text piece : List Char} (member : piece ∈ text.splitOn '/') :
    '/' ∉ piece := by
  induction text generalizing piece with
  | nil =>
      cases List.mem_singleton.mp member
      exact List.not_mem_nil
  | cons c text ih =>
      rw [List.splitOn_cons_eq_if_modifyHead] at member
      split at member
      · rcases List.mem_cons.mp member with rfl | member
        · exact List.not_mem_nil
        · exact ih member
      · rename_i other
        obtain ⟨first, rest, split⟩ := List.exists_cons_of_ne_nil (List.splitOn_ne_nil '/' text)
        rw [split] at member ih
        rcases List.mem_cons.mp member with rfl | member
        · rintro (_ | ⟨_, inside⟩)
          · exact other rfl
          · exact ih List.mem_cons_self inside
        · exact ih (List.mem_cons_of_mem _ member)

theorem not_separator (member : piece ∈ path.pieces) : '/' ∉ piece :=
  not_separator_of_mem_splitOn member

/-! ## Pushing a text -/

/-- The path with a text pushed onto it. -/
def push (path : Path) (text : List Char) : Path := ⟨path.text ++ text⟩

theorem intercalate_append (last text : List Char) :
    ['/'].intercalate (front ++ [last]) ++ text = ['/'].intercalate (front ++ [last ++ text]) := by
  induction front with
  | nil => simp
  | cons first front ih =>
      have some : ∀ last : List Char, front ++ [last] ≠ [] := fun last =>
        List.append_ne_nil_of_right_ne_nil front (List.cons_ne_nil last [])
      rw [List.cons_append, List.cons_append, List.intercalate_cons_of_ne_nil (some _),
        List.intercalate_cons_of_ne_nil (some _), List.append_assoc, ih]

/-- A text without a separator changes the last piece. -/
theorem pieces_push (path : Path) {text : List Char} (free : '/' ∉ text) :
    (path.push text).pieces = path.lead ++ [path.name ++ text] := by
  have pushed : path.push text = join (path.lead ++ [path.name ++ text]) := by
    rw [join, ← intercalate_append, lead_append_name]
    exact congrArg (fun path : Path => path.push text) (join_pieces path).symm
  rw [pushed]
  refine pieces_join (by simp) fun piece member => ?_
  rcases List.mem_append.mp member with member | member
  · exact not_separator (List.dropLast_subset path.pieces member)
  · cases List.mem_singleton.mp member
    have last : '/' ∉ path.name := not_separator (List.getLast_mem path.pieces_ne_nil)
    rw [List.mem_append, not_or]
    exact ⟨last, free⟩

theorem name_push (path : Path) {text : List Char} (free : '/' ∉ text) :
    (path.push text).name = path.name ++ text := by
  simp only [name, pieces_push path free, List.getLast_concat]

/-! ## The parent -/

/-- An empty piece and `.` are no components. -/
def isComponent (piece : List Char) : Bool := piece != [] && piece != ['.']

/-- The pieces without those at the end that are no components. -/
def trim (pieces : List (List Char)) : List (List Char) :=
  pieces.rdropWhile fun piece => !isComponent piece

/-- The path without its last component, if it has one.  A first piece `.` is a component, and
an empty one in front of others is the root. -/
def parent (path : Path) : Option Path :=
  match path.pieces with
  | [] => none
  | first :: rest =>
      if trim rest = [] then if first = [] then none else some ⟨[]⟩
      else
        let before := trim (trim rest).dropLast
        if first = [] ∧ before = [] then some ⟨['/']⟩ else some (join (first :: before))

/-- Where pieces lead, one after the other: from the root or from the current directory, and
through these components. -/
structure Route where
  absolute : Bool
  components : List (List Char)
  deriving DecidableEq

def Route.along (pieces : List (List Char)) : Route :=
  ⟨pieces.head? == some [], pieces.filter isComponent⟩

theorem filter_trim (pieces : List (List Char)) :
    (trim pieces).filter isComponent = pieces.filter isComponent := by
  induction pieces using List.reverseRecOn with
  | nil => rfl
  | append_singleton pieces piece ih =>
      by_cases component : isComponent piece
      · rw [trim, List.rdropWhile_concat_neg _ _ _ (by simp [component])]
      · rw [trim, List.rdropWhile_concat_pos _ _ _ (by simp [component]), List.filter_append,
          List.filter_singleton, eq_false_of_ne_true component]
        rw [cond_false, List.append_nil]
        exact ih

theorem trim_concat (front : List (List Char)) (component : isComponent piece) :
    trim (front ++ [piece]) = front ++ [piece] :=
  List.rdropWhile_concat_neg _ _ _ (by simp [component])

theorem trim_subset (pieces : List (List Char)) : trim pieces ⊆ pieces :=
  (List.rdropWhile_prefix _ _).subset

/-- The parent of a path that ends in a component. -/
theorem parent_of_name (component : isComponent path.name) :
    path.lead = [] ∧ path.parent = some ⟨[]⟩ ∨
      ∃ parent, path.parent = some parent ∧ parent.text ≠ [] ∧
        Route.along parent.pieces = Route.along path.lead := by
  have split := path.lead_append_name
  unfold parent
  cases front : path.lead with
  | nil =>
      -- A bare name is its own first piece.
      rw [front, List.nil_append] at split
      have proper : path.name ≠ [] := by
        rintro isEmpty
        rw [isEmpty] at component
        cases component
      refine .inl ⟨rfl, ?_⟩
      rw [← split]
      exact (if_pos rfl).trans (if_neg proper)
  | cons first rest =>
      rw [front, List.cons_append] at split
      refine .inr ?_
      have free : ∀ piece ∈ first :: trim rest, '/' ∉ piece := by
        intro piece member
        have whole : piece ∈ path.pieces := by
          rw [← split]
          rcases List.mem_cons.mp member with rfl | member
          · exact List.mem_cons_self
          · exact List.mem_cons_of_mem _ (List.mem_append_left _ (trim_subset rest member))
        exact not_separator whole
      rw [← split]
      dsimp only
      rw [trim_concat rest component, if_neg (by simp), List.dropLast_concat]
      split_ifs with root
      · obtain ⟨rfl, all⟩ := root
        refine ⟨_, rfl, List.cons_ne_nil _ _, ?_⟩
        have none : rest.filter isComponent = [] := by rw [← filter_trim, all]; rfl
        show Route.along [[], []] = _
        simp [Route.along, isComponent, none]
      · refine ⟨_, rfl, fun isEmpty => root ?_, ?_⟩
        · have pieces := pieces_join (List.cons_ne_nil _ _) free
          rw [show join (first :: trim rest) = ⟨[]⟩ from congrArg Path.mk isEmpty] at pieces
          obtain ⟨root, none⟩ := List.cons_eq_cons.mp (show [[]] = first :: trim rest from pieces)
          exact ⟨root.symm, none.symm⟩
        · rw [pieces_join (List.cons_ne_nil _ _) free]
          simp only [Route.along, List.head?_cons, List.filter_cons, filter_trim]

example : (Path.mk "a/.//b".toList).parent = some ⟨"a".toList⟩ := by decide

end Path

end Lkv.Theory
