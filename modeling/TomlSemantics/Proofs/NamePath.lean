import TomlSemantics.Name.Path

/-!
# Names as slash paths, written and read

A path that writes a name is read piece by piece, and each piece is one of the segments, since every
slash and backslash in a segment is taken by a backslash. What reading then drops, and no more, is
lost: empty segments after the first, and an empty first one that stands alone.

1. `pieces_intercalate`: the pieces of a written name are its segments.
2. `ofPath_toPath`: the name that is read from a written one.
3. `written_read_iff`: the names that are read again, the paths that give such a name, and the paths
   that are written alike.
-/

namespace TomlSemantics.Name

variable {c : Char} {cs rest first : List Char} {later : List (List Char)}

/-! ## Pieces -/

theorem escapeSegment_cons (c : Char) (cs : List Char) :
    escapeSegment (c :: cs) =
      (if c = '/' ∨ c = '\\' then ['\\', c] else [c]) ++ escapeSegment cs := rfl

theorem pieces_cons (slash : c ≠ '/') (backslash : c ≠ '\\') (rest : List Char) :
    pieces (c :: rest) = (c :: (pieces rest).1, (pieces rest).2) := by
  simp [pieces, backslash]

/-- A segment is read as it was before it was escaped. -/
theorem pieces_escapeSegment_append (cs rest : List Char) :
    pieces (escapeSegment cs ++ rest) = (cs ++ (pieces rest).1, (pieces rest).2) := by
  induction cs with
  | nil => rfl
  | cons c cs ih =>
    rw [escapeSegment_cons]
    split
    · simp [pieces, ih]
    · next plain =>
      obtain ⟨slash, backslash⟩ := not_or.mp plain
      rw [List.append_assoc, List.singleton_append, pieces_cons slash backslash, ih]
      rfl

theorem pieces_escapeSegment (cs : List Char) : pieces (escapeSegment cs) = (cs, []) := by
  simpa [pieces] using pieces_escapeSegment_append cs []

/-- The pieces between the slashes of a written name are its segments. -/
theorem pieces_intercalate (first : List Char) (later : List (List Char)) :
    pieces (['/'].intercalate ((first :: later).map escapeSegment)) = (first, later) := by
  induction later generalizing first with
  | nil => simpa using pieces_escapeSegment first
  | cons second later ih =>
    have rest := ih second
    rw [List.map_cons] at rest
    rw [List.map_cons, List.map_cons, List.intercalate_cons_cons, List.append_assoc,
      pieces_escapeSegment_append, List.singleton_append, pieces, rest, List.append_nil]

/-! ## Names -/

/-- The path of a name before a lone namespace gets its slash. -/
theorem toList_toPath (segments : List String) :
    (toPath ⟨segments⟩).toList =
      ['/'].intercalate ((segments.map String.toList).map escapeSegment) ++
        if isNamespace segments then ['/'] else [] := by
  unfold toPath
  rw [String.toList_ofList, List.map_map]
  split
  · rfl
  · rw [List.append_nil]
    rfl

theorem map_filter_toList (segments : List String) :
    ((segments.map String.toList).filter (!·.isEmpty)).map String.ofList =
      segments.filter (· ≠ "") := by
  have same : String.ofList ∘ String.toList = id := funext fun _ => String.ofList_toList
  rw [List.filter_map, List.map_map, same, List.map_id]
  refine List.filter_congr fun segment _ => ?_
  rw [Bool.eq_iff_iff]
  simp

/-- The name that is read from the path of another. -/
theorem ofPath_toPath {first : String} {later : List String} (shown : first ≠ "" ∨ later ≠ []) :
    ofPath (toPath ⟨first :: later⟩) = ⟨first :: later.filter (· ≠ "")⟩ := by
  refine congrArg mk ?_
  rw [toList_toPath]
  cases later with
  | nil =>
    have notEmpty : first ≠ "" := by simpa using shown
    simp only [List.map_cons, List.map_nil, List.intercalate_singleton]
    rw [pieces_escapeSegment_append]
    split <;> simp [pieces, keptPieces, notEmpty]
  | cons second later =>
    rw [if_neg (by simp [isNamespace]), List.append_nil, List.map_cons, pieces_intercalate]
    simp only [List.map_cons, keptPieces, String.ofList_toList]
    exact congrArg (first :: ·) (map_filter_toList (second :: later))

/-- A path gives no empty segment but the first. -/
theorem ne_empty_of_mem_tail_ofPath (path : String) :
    ∀ segment ∈ (ofPath path).segments.tail, segment ≠ "" := by
  unfold ofPath
  generalize pieces path.toList = found
  obtain ⟨first, later⟩ := found
  cases later with
  | nil =>
    simp only [keptPieces]
    split <;> simp
  | cons second later =>
    intro segment member
    simp only [keptPieces, List.map_cons, List.tail_cons, List.mem_map, List.mem_filter] at member
    obtain ⟨piece, ⟨-, kept⟩, rfl⟩ := member
    simpa using kept

theorem ofPath_toPath_eq_iff (n : Name) :
    ofPath n.toPath = n ↔ (∀ segment ∈ n.segments.tail, segment ≠ "") ∧ n.segments ≠ [""] := by
  obtain ⟨segments⟩ := n
  cases segments with
  | nil => decide
  | cons first later =>
    by_cases shown : first ≠ "" ∨ later ≠ []
    · have other : first :: later ≠ [""] := by
        rintro ⟨⟩
        simp at shown
      rw [ofPath_toPath shown]
      simp [other, List.filter_eq_self]
    · obtain ⟨rfl, rfl⟩ : first = "" ∧ later = [] := by simpa using shown
      decide

/-- A name is read back from its path just if no segment after the first is empty and the name is
not an empty segment alone. Of the names that paths give only that one is not read back, so no two
others are written alike. -/
theorem written_read_iff :
    (∀ n : Name, ofPath n.toPath = n ↔
      (∀ segment ∈ n.segments.tail, segment ≠ "") ∧ n.segments ≠ [""]) ∧
    (∀ path, ofPath (ofPath path).toPath = ofPath path ↔ (ofPath path).segments ≠ [""]) ∧
    ∀ path other, (ofPath path).segments ≠ [""] → (ofPath other).segments ≠ [""] →
      ofPath path ≠ ofPath other → (ofPath path).toPath ≠ (ofPath other).toPath := by
  have again (path : String) :
      ofPath (ofPath path).toPath = ofPath path ↔ (ofPath path).segments ≠ [""] := by
    rw [ofPath_toPath_eq_iff]
    exact and_iff_right (ne_empty_of_mem_tail_ofPath path)
  refine ⟨ofPath_toPath_eq_iff, again, fun path other shown shown' distinct same => distinct ?_⟩
  calc
    ofPath path = ofPath (ofPath path).toPath := ((again path).mpr shown).symm
    _ = ofPath (ofPath other).toPath := congrArg ofPath same
    _ = ofPath other := (again other).mpr shown'

/-- A slash inside of a segment is no slash between two. -/
theorem written_read_slash :
    (ofPath "user:/a\\/b").segments ≠ [""] ∧ (ofPath "user:/a/b").segments ≠ [""] ∧
      ofPath "user:/a\\/b" ≠ ofPath "user:/a/b" ∧
      (ofPath "user:/a\\/b").toPath ≠ (ofPath "user:/a/b").toPath :=
  ⟨by decide, by decide, by decide,
    written_read_iff.2.2 "user:/a\\/b" "user:/a/b" (by decide) (by decide) (by decide)⟩

end TomlSemantics.Name
