import Mathlib.Data.List.DropRight
import Mathlib.Data.List.Forall2
import Mathlib.Data.List.TakeWhile
import Mathlib.Data.String.Basic

/-!
The path of a URL, as a client that parses the text sends it and a server that splits and
percent-decodes it reads it. The client leaves out blanks at the end, tabs and line ends, takes a
backslash for a slash, ends the path at the query or the fragment, and resolves dot segments. What
it percent-encodes the server decodes.
-/

namespace Quiver.UrlPath

open String (utf8Len utf8Len_append utf8Len_cons utf8Len_nil)

def isIgnored (c : Char) : Bool := c == '\t' || c == '\n' || c == '\r'

def startsSuffix (c : Char) : Bool := c == '?' || c == '#'

def slashed (c : Char) : Char := if c == '\\' then '/' else c

/-- The text of a path: what a client drops is gone, and every separator is a slash. -/
def cleaned (target : List Char) : List Char :=
  (((target.rdropWhile (· ≤ ' ')).filter (!isIgnored ·)).takeWhile (!startsSuffix ·)).map slashed

def isSingleDot (segment : List Char) : Bool := segment.map Char.toLower ∈ [['.'], ['%', '2', 'e']]

def isDoubleDot (segment : List Char) : Bool :=
  segment.map Char.toLower ∈ [['.', '.'], ['.', '%', '2', 'e'], ['%', '2', 'e', '.'], ['%', '2', 'e', '%', '2', 'e']]

/-- The segments behind those that are done. A dot segment at the end leaves an empty one. -/
def resolve : List (List Char) → List (List Char) → List (List Char)
  | done, [] => done
  | done, segment :: rest =>
    let last := if rest = [] then [[]] else []
    if isDoubleDot segment then resolve (done.dropLast ++ last) rest
    else if isSingleDot segment then resolve (done ++ last) rest
    else resolve (done ++ [segment]) rest

/-- The segments of the path that is sent for a text; it starts with a slash. -/
def segments (target : List Char) : List (List Char) := resolve [] ((cleaned target).splitOn '/').tail

def hexDigit (b : UInt8) : Option UInt8 :=
  if 48 ≤ b ∧ b ≤ 57 then some (b - 48)
  else if 65 ≤ b ∧ b ≤ 70 then some (b - 55)
  else if 97 ≤ b ∧ b ≤ 102 then some (b - 87)
  else none

/-- A percent sign that two hexadecimal digits do not follow stands for itself. -/
def percentDecode : List UInt8 → List UInt8
  | 37 :: high :: low :: rest =>
    match hexDigit high, hexDigit low with
    | some high, some low => (16 * high + low) :: percentDecode rest
    | _, _ => 37 :: percentDecode (high :: low :: rest)
  | b :: rest => b :: percentDecode rest
  | [] => []

/-- The text of a segment, unless the decoded bytes are not UTF-8. -/
def decodeSegment (segment : String) : Option String :=
  String.fromUTF8? ⟨(percentDecode segment.toUTF8.data.toList).toArray⟩

theorem length_percentDecode_le (bytes : List UInt8) : (percentDecode bytes).length ≤ bytes.length := by
  induction bytes using percentDecode.induct with
  | case1 high low rest h l isHigh isLow ih => simp only [percentDecode, isHigh, isLow, List.length_cons]; omega
  | case2 high low rest other ih => simpa [percentDecode, other] using ih
  | case3 b rest other ih => simpa [percentDecode] using ih
  | case4 => simp [percentDecode]

theorem utf8ByteSize_decodeSegment_le {segment text : String} (decoded : decodeSegment segment = some text) :
    text.utf8ByteSize ≤ segment.utf8ByteSize := by
  unfold decodeSegment String.fromUTF8? at decoded
  split at decoded
  · cases decoded
    have shorter := length_percentDecode_le segment.toUTF8.data.toList
    rw [← String.size_toByteArray, ← String.size_toByteArray]
    exact shorter
  · cases decoded

/-! ## What a path carries -/

/-- The path of some names. -/
def path (parts : List (List Char)) : List Char := '/' :: ['/'].intercalate parts

/-- A name that a path carries unchanged, up to percent signs. -/
def Ordinary (part : List Char) : Prop :=
  (∀ c ∈ part, c ≠ '/' ∧ c ≠ '\\' ∧ isIgnored c = false ∧ startsSuffix c = false) ∧
    isSingleDot part = false ∧ isDoubleDot part = false

/-- The bytes of segments with a slash before each of them. -/
def total : List (List Char) → Nat
  | [] => 0
  | part :: rest => utf8Len part + 1 + total rest

theorem total_append (parts rest : List (List Char)) : total (parts ++ rest) = total parts + total rest := by
  induction parts with
  | nil => simp [total]
  | cons part parts ih =>
    simp only [List.cons_append, total, ih]
    omega

theorem utf8Len_path {parts : List (List Char)} (some : parts ≠ []) : utf8Len (path parts) = total parts := by
  have slash : Char.utf8Size '/' = 1 := by decide
  induction parts with
  | nil => contradiction
  | cons part parts ih =>
    cases parts with
    | nil => simp [path, total, slash]
    | cons next parts =>
      have rest := ih (by simp)
      rw [path, utf8Len_cons] at rest
      rw [path, List.intercalate_cons_cons, utf8Len_cons, utf8Len_append, utf8Len_append]
      simp only [total, utf8Len_cons, utf8Len_nil] at rest ⊢
      omega

theorem not_mem_splitOn {text segment : List Char} (member : segment ∈ text.splitOn '/') : '/' ∉ segment := by
  induction text generalizing segment with
  | nil => simp_all
  | cons c text ih =>
    rw [List.splitOn_cons_eq_if_modifyHead] at member
    split at member
    · obtain rfl | later := List.mem_cons.mp member
      · simp
      · exact ih later
    · rename_i differ
      obtain ⟨first, rest, isSplit⟩ := List.exists_cons_of_ne_nil (List.splitOn_ne_nil '/' text)
      rw [isSplit, List.modifyHead_cons] at member
      obtain rfl | later := List.mem_cons.mp member
      · have clear : '/' ∉ first := ih (isSplit ▸ List.mem_cons_self)
        exact List.not_mem_cons_of_ne_of_not_mem (fun same => differ (beq_iff_eq.mpr same.symm)) clear
      · exact ih (isSplit ▸ List.mem_cons_of_mem _ later)

/-- Nothing is resolved, or bytes are lost. -/
theorem resolve_total (done rest : List (List Char)) :
    resolve done rest = done ++ rest ∧ (∀ segment ∈ rest, isSingleDot segment = false ∧ isDoubleDot segment = false) ∨
      total (resolve done rest) < total done + total rest := by
  induction rest generalizing done with
  | nil => simp [resolve]
  | cons segment rest ih =>
    have shorter (kept : List (List Char)) (less : total kept < total done + total [segment]) :
        total (resolve kept rest) < total done + total (segment :: rest) := by
      have split : total (segment :: rest) = _ := total_append [segment] rest
      obtain ⟨same, _⟩ | lost := ih kept
      · rw [same, total_append]
        omega
      · omega
    have one : utf8Len segment + 1 = total [segment] := by simp [total]
    have last : total (if rest = [] then [[]] else []) ≤ 1 := by split <;> simp [total]
    have dropped : total done.dropLast ≤ total done := by
      obtain rfl | ⟨parts, last, rfl⟩ := List.eq_nil_or_concat done
      · simp
      · simp [total_append]
    have some (dot : isSingleDot segment = true ∨ isDoubleDot segment = true) : utf8Len segment ≠ 0 := by
      rw [ne_eq, String.utf8Len_eq_zero]
      rintro rfl
      revert dot
      decide
    rw [resolve]
    by_cases double : isDoubleDot segment = true
    · right
      rw [if_pos double]
      refine shorter _ ?_
      have := some (.inr double)
      rw [total_append]
      omega
    · rw [if_neg double]
      by_cases single : isSingleDot segment = true
      · right
        rw [if_pos single]
        refine shorter _ ?_
        have := some (.inl single)
        rw [total_append]
        omega
      · rw [if_neg single]
        obtain ⟨same, plain⟩ | lost := ih (done ++ [segment])
        · refine .inl ⟨by rw [same, List.append_assoc]; rfl, ?_⟩
          simpa [single, double] using plain
        · rw [total_append, Nat.add_assoc, ← total_append] at lost
          exact .inr lost

theorem resolve_ordinary {parts : List (List Char)} (plain : ∀ p ∈ parts, Ordinary p) (done : List (List Char)) :
    resolve done parts = done ++ parts := by
  induction parts generalizing done with
  | nil => simp [resolve]
  | cons part parts ih =>
    obtain ⟨⟨_, single, double⟩, rest⟩ := List.forall_mem_cons.mp plain
    simp [resolve, single, double, ih rest]

/-- As many parts, each of them no larger. -/
abbrev Fits : List (List Char) → List (List Char) → Prop := List.Forall₂ fun part segment => utf8Len part ≤ utf8Len segment

theorem Fits.total_le {parts read : List (List Char)} (fits : Fits parts read) : total parts ≤ total read := by
  induction fits with
  | nil => exact le_rfl
  | cons le _ ih =>
    simp only [total] at ih ⊢
    omega

/-- Joined texts are the same only if their parts are, where those of the one fit in those of the other. -/
theorem Fits.intercalate_inj {parts read : List (List Char)} (fits : Fits parts read)
    (same : ['/'].intercalate read = ['/'].intercalate parts) : read = parts := by
  induction fits with
  | nil => rfl
  | @cons part segment parts read le rest ih =>
    cases rest with
    | nil => simpa using same
    | @cons next next' parts read le' rest =>
      have whole := congrArg utf8Len same
      have left := utf8Len_path (List.cons_ne_nil next' read)
      have right := utf8Len_path (List.cons_ne_nil next parts)
      have more := Fits.total_le (.cons le' rest)
      rw [path, utf8Len_cons] at left right
      rw [List.intercalate_cons_cons, List.intercalate_cons_cons] at same whole
      simp only [utf8Len_append] at whole
      have equal : utf8Len segment = utf8Len part := by omega
      rw [List.append_assoc, List.append_assoc] at same
      have first : segment = part := by
        obtain ⟨more, isMore, _⟩ | ⟨more, isMore, _⟩ := List.append_eq_append_iff.mp same
        all_goals
          have none : more = [] := String.utf8Len_eq_zero.mp (by rw [isMore, utf8Len_append] at equal; omega)
          rw [isMore, none, List.append_nil]
      subst first
      rw [ih (List.append_cancel_left (List.append_cancel_left same))]

/-- A sublist that is no smaller is the whole list. -/
theorem eq_of_sublist {text whole : List Char} (sub : text.Sublist whole) (le : utf8Len whole ≤ utf8Len text) : text = whole := by
  induction sub with
  | slnil => rfl
  | cons c sub =>
    have shorter := String.utf8Len_le_of_sublist sub
    have := c.utf8Size_pos
    rw [utf8Len_cons] at le
    omega
  | cons_cons c sub ih =>
    rw [utf8Len_cons, utf8Len_cons] at le
    rw [ih (by omega)]

theorem map_intercalate (f : Char → Char) (parts : List (List Char)) :
    (['/'].intercalate parts).map f = [f '/'].intercalate (parts.map (List.map f)) := by
  induction parts with
  | nil => rfl
  | cons part parts ih =>
    cases parts with
    | nil => simp
    | cons next parts =>
      rw [List.intercalate_cons_cons, List.map_cons, List.map_cons, List.intercalate_cons_cons, List.map_append,
        List.map_append, ih]
      rfl

section Path

variable {parts : List (List Char)} (some : parts ≠ [])

theorem mem_path {c : Char} : c ∈ path parts ↔ c = '/' ∨ ∃ p ∈ parts, c ∈ p := by
  rw [path, List.mem_cons]
  induction parts with
  | nil => simp
  | cons part parts ih =>
    cases parts with
    | nil => simp
    | cons next parts =>
      rw [List.intercalate_cons_cons, List.mem_append, List.mem_append, List.mem_singleton, List.exists_mem_cons_iff]
      by_cases slash : c = '/'
      · simp [slash]
      · simp only [slash, false_or, or_false] at ih ⊢
        rw [ih]

include some

theorem path_eq : path parts = ['/'].intercalate ([] :: parts) := by
  obtain ⟨part, parts, rfl⟩ := List.exists_cons_of_ne_nil some
  rw [path, List.intercalate_cons_cons]
  rfl

theorem segments_ordinary (plain : ∀ p ∈ parts, Ordinary p) (ends : ∀ c ∈ (path parts).getLast?, ¬ c ≤ ' ') :
    segments (path parts) = parts := by
  have chars : ∀ c ∈ path parts, c ≠ '\\' ∧ isIgnored c = false ∧ startsSuffix c = false := by
    intro c member
    obtain rfl | ⟨p, inside, here⟩ := mem_path.mp member
    · decide
    · exact ((plain p inside).1 c here).2
  have kept : (path parts).rdropWhile (· ≤ ' ') = path parts :=
    List.rdropWhile_eq_self_iff.mpr fun some => by simpa using ends _ (List.getLast?_eq_some_getLast some)
  have clean : cleaned (path parts) = path parts := by
    rw [cleaned, kept, List.filter_eq_self.mpr fun c member => by simp [(chars c member).2.1],
      List.takeWhile_eq_self_iff.mpr fun c member => by simp [(chars c member).2.2]]
    exact (List.map_congr_left fun c member => if_neg (by simp [(chars c member).1])).trans (List.map_id _)
  rw [segments, clean, path_eq some, List.splitOn_intercalate, List.tail_cons, resolve_ordinary plain]
  · rfl
  · simpa using fun p inside => fun here => ((plain p inside).1 '/' here).1 rfl
  · simp

/-- A path is read as segments that its parts fit in exactly if these are its parts, and it carries them. -/
theorem segments_path_iff {read : List (List Char)} (fits : Fits parts read) :
    segments (path parts) = read ↔
      read = parts ∧ (∀ p ∈ parts, Ordinary p) ∧ ∀ c ∈ (path parts).getLast?, ¬ c ≤ ' ' := by
  refine ⟨fun isRead => ?_, fun ⟨isParts, plain, ends⟩ => (segments_ordinary some plain ends).trans isParts.symm⟩
  have slashedLen (text : List Char) : utf8Len (text.map slashed) = utf8Len text := by
    induction text with
    | nil => rfl
    | cons c text ih =>
      have same : (slashed c).utf8Size = c.utf8Size := by
        unfold slashed
        split
        · rename_i backslash
          rw [beq_iff_eq.mp backslash]
          rfl
        · rfl
      rw [List.map_cons, utf8Len_cons, utf8Len_cons, ih, same]
  -- Every step from the text to its segments loses bytes if it changes anything, and none are lost.
  obtain ⟨first, rest, isSplit⟩ := List.exists_cons_of_ne_nil (List.splitOn_ne_nil '/' (cleaned (path parts)))
  have joined : ['/'].intercalate ((cleaned (path parts)).splitOn '/') = _ := List.intercalate_splitOn '/'
  have splitLen := utf8Len_path (List.cons_ne_nil first rest)
  have whole := utf8Len_path some
  have more := fits.total_le
  rw [isSplit] at joined
  rw [path, joined, utf8Len_cons] at splitLen
  have slash : Char.utf8Size '/' = 1 := by decide
  have lost := resolve_total [] rest
  rw [segments, isSplit, List.tail_cons] at isRead
  rw [isRead] at lost
  let dropped := (path parts).rdropWhile (· ≤ ' ')
  let filtered := dropped.filter (!isIgnored ·)
  let text := filtered.takeWhile (!startsSuffix ·)
  have inFiltered : text.Sublist filtered := List.takeWhile_sublist _
  have inDropped : filtered.Sublist dropped := List.filter_sublist
  have inPath : dropped.Sublist (path parts) := (List.rdropWhile_prefix _ _).sublist
  have textLen : utf8Len (cleaned (path parts)) = utf8Len text := slashedLen text
  have shorter := String.utf8Len_le_of_sublist (inFiltered.trans (inDropped.trans inPath))
  simp only [total] at lost splitLen whole more
  obtain ⟨rfl, dots⟩ | less := lost
  · have isFirst : first = [] := String.utf8Len_eq_zero.mp (by omega)
    have isText : text = path parts := eq_of_sublist (inFiltered.trans (inDropped.trans inPath)) (by omega)
    have isDropped : dropped = path parts := inPath.antisymm (isText ▸ inFiltered.trans inDropped)
    have isFiltered : filtered = path parts := (isDropped ▸ inDropped).antisymm (isText ▸ inFiltered)
    have unignored := List.filter_eq_self.mp (show dropped.filter (!isIgnored ·) = dropped from isFiltered.trans isDropped.symm)
    have unended := List.takeWhile_eq_self_iff.mp
      (show filtered.takeWhile (!startsSuffix ·) = filtered from isText.trans isFiltered.symm)
    have ends := List.rdropWhile_eq_self_iff.mp isDropped
    rw [isDropped] at unignored
    rw [isFiltered] at unended
    have mapped : ['/'].intercalate ([] :: read) = ['/'].intercalate ([] :: parts.map (List.map slashed)) := by
      subst isFirst
      rw [joined]
      change text.map slashed = _
      rw [isText, path_eq some, map_intercalate]
      rfl
    have someRead : read ≠ [] := by
      rintro rfl
      cases fits
      exact some rfl
    rw [← path_eq someRead, ← path_eq (by simpa using some), path, path, List.cons.injEq] at mapped
    have isMapped : read = parts.map (List.map slashed) := by
      refine Fits.intercalate_inj (List.forall₂_map_left_iff.mpr ?_) mapped.2
      simpa only [slashedLen] using fits
    have whole : ∀ p ∈ parts, ∀ c ∈ p, c ≠ '/' ∧ c ≠ '\\' := by
      intro p inside c member
      have free : '/' ∉ p.map slashed := by
        have listed : p.map slashed ∈ (cleaned (path parts)).splitOn '/' := by
          rw [isSplit, isMapped]
          exact List.mem_cons_of_mem _ (List.mem_map_of_mem inside)
        exact not_mem_splitOn listed
      constructor
      · rintro rfl
        exact free (List.mem_map.mpr ⟨_, member, rfl⟩)
      · rintro rfl
        exact free (List.mem_map.mpr ⟨_, member, rfl⟩)
    have isParts : read = parts := by
      rw [isMapped]
      refine (List.map_congr_left fun p inside => ?_).trans (List.map_id _)
      exact (List.map_congr_left fun c member => if_neg (by simpa using (whole p inside c member).2)).trans (List.map_id _)
    refine ⟨isParts, fun p inside => ⟨fun c member => ?_, ?_⟩, fun c isLast => ?_⟩
    · have inPath : c ∈ path parts := mem_path.mpr (.inr ⟨p, inside, member⟩)
      exact ⟨(whole p inside c member).1, (whole p inside c member).2, by simpa using unignored c inPath,
        by simpa using unended c inPath⟩
    · exact dots p (isParts ▸ inside)
    · obtain ⟨some, rfl⟩ := List.mem_getLast?_eq_getLast isLast
      simpa using ends some
  · omega

end Path

end Quiver.UrlPath
