import ContractLint.Proofs.Source.Endings
import ContractLint.Proofs.Text.ByteOrder
import ContractLint.SourceView

/-!
# Where spans point

A place is reported as a line and a column and as a stretch of bytes, from there to the end of the
line. The offset counts the lines above, each with the ending of the file. So it is the place of the
line in the text that the file is written as; in the text that was read it is the place of the line
if the lines above have that ending too.

## The architecture

* **`LineAt`** — where a line stands in a text, by the line feeds above it.
* **`EndedLine.lineAt`, `exists_lineAt`** — what stands above a line are the ended lines before it.
* **`byteSize_lines_above`** — what the offset counts: the text above, with a carriage return before
  every line feed if there is a `\r\n` anywhere in the text.
* **`location_exact_iff`** — the place that is reported, and when it is the place of the line.
-/

namespace ContractLint

namespace Text

/-- The bytes of a part of a text, by its place. -/
theorem take_drop_bytes (s t u : Text) :
    (((s ++ (t ++ u)).bytes).drop s.byteSize).take t.byteSize = t.bytes := by
  rw [bytes_append, bytes_append, ← length_bytes s, List.drop_left, ← length_bytes t,
    List.take_left]

/-- Putting in carriage returns makes a text longer, unless there is nothing to do. -/
theorem byteSize_returnFeeds (before : Option Char) (t : Text) :
    t.byteSize ≤ (returnFeeds before t).byteSize ∧
      ((returnFeeds before t).byteSize = t.byteSize → returnFeeds before t = t) := by
  induction t generalizing before with
  | nil => exact ⟨Nat.le_refl _, fun _ => rfl⟩
  | cons c t ih =>
    obtain ⟨hle, heq⟩ := ih (some c)
    rw [returnFeeds]
    split
    · next hfeed =>
      have hlong : byteSize ('\r' :: '\n' :: returnFeeds (some c) t) =
          1 + (c.utf8Size + (returnFeeds (some c) t).byteSize) := by
        rw [hfeed.1]
        rfl
      rw [hlong, byteSize_cons]
      exact ⟨by omega, fun h => by omega⟩
    · rw [byteSize_cons, byteSize_cons]
      exact ⟨by omega, fun h => by rw [heq (by omega)]⟩

theorem byteSize_withReturns_iff (t : Text) :
    t.withReturns.byteSize = t.byteSize ↔ t.FeedsReturned := by
  rw [← withReturns_eq_self_iff]
  exact ⟨(byteSize_returnFeeds none t).2, congrArg byteSize⟩

/-- The line with `number` lines before it stands right below `above`. -/
structure LineAt (t : Text) (number : Nat) (above line : Text) : Prop where
  text : ∃ below, t = above ++ (line ++ below)
  /-- Each line above has one line feed. -/
  feeds : above.count '\n' = number
  starts : above = [] ∨ above.getLast? = some '\n'

end Text

/-- Ended lines are as many as their line feeds. -/
theorem EndedLine.count_flatMap (ended : List EndedLine) :
    (ended.flatMap text).count '\n' = ended.length := by
  induction ended with
  | nil => rfl
  | cons l ended ih =>
    have hline : l.text.count '\n' = 1 := by
      rw [text, List.count_append, List.count_eq_zero.2 l.terminates.1]
      cases l.ending <;> rfl
    rw [List.flatMap_cons, List.count_append, hline, ih, List.length_cons, Nat.add_comm]

theorem EndedLine.lineAt (ended : List EndedLine) (line below : Text) :
    Text.LineAt (ended.flatMap text ++ (line ++ below)) ended.length (ended.flatMap text) line where
  text := ⟨below, rfl⟩
  feeds := count_flatMap ended
  starts := by
    by_cases hnone : ended = []
    · exact .inl (by rw [hnone, List.flatMap_nil])
    · exact .inr (getLast?_flatMap hnone)

/-- **A line stands below the ended lines before it.** -/
theorem exists_lineAt {t line : Text} {number : Nat} (h : t.lines[number]? = some line) :
    ∃ (ended : List EndedLine) (below : Text),
      t = ended.flatMap EndedLine.text ++ (line ++ below) ∧ ended.length = number ∧
        t.lines.take number = ended.map EndedLine.line := by
  obtain ⟨ended, rest, rfl, hrest⟩ := EndedLine.exists_flatMap_append t
  rw [EndedLine.lines_flatMap] at h ⊢
  rcases Nat.lt_or_ge number ended.length with hlt | hge
  · -- the line is ended itself
    obtain ⟨init, l, tail, rfl, rfl⟩ :
        ∃ init l tail, ended = init ++ l :: tail ∧ init.length = number := by
      refine ⟨ended.take number, ended[number], ended.drop (number + 1), ?_, by simp; omega⟩
      rw [← List.drop_eq_getElem_cons hlt, List.take_append_drop]
    obtain rfl : l.line = line := by simpa using h
    exact ⟨init, l.ending.text ++ (tail.flatMap EndedLine.text ++ rest),
      by simp [EndedLine.text], rfl, by simp⟩
  · -- the line is what stands behind the last line feed
    rw [List.getElem?_append_right (by simpa using hge), List.length_map] at h
    have hne : rest ≠ [] := by
      rintro rfl
      simp [Text.lines] at h
    rw [Text.lines_of_newline_notMem hrest hne] at h ⊢
    obtain ⟨hzero, rfl⟩ : number - ended.length = 0 ∧ rest = line := by
      cases hn : number - ended.length with
      | zero => simpa [hn] using h
      | succ n => simp [hn] at h
    have hnumber : number = ended.length := by omega
    exact ⟨ended, [], by simp, hnumber.symm, by simp [hnumber]⟩

/-- What the lines above take in bytes, with the ending of the file behind each. -/
theorem byteSize_lines_above (p : Path) (ended : List EndedLine) (rest : Text) :
    Text.byteSize ((ended.map EndedLine.line).flatMap
        (· ++ (Source.ofText p (ended.flatMap EndedLine.text ++ rest)).ending.text)) =
      Text.byteSize (if LineEnding.crlf.text <:+: ended.flatMap EndedLine.text ++ rest
        then Text.withReturns (ended.flatMap EndedLine.text) else ended.flatMap EndedLine.text) := by
  rw [List.flatMap_map]
  split
  · next h =>
    have hreturned := @returnFeeds_flatMap none (by simp) ended [] (by simp)
    rw [List.append_nil, List.append_nil] at hreturned
    rw [Source.ending_ofText_of_crlf h, Text.withReturns, hreturned]
  · next h => rw [Source.ending_ofText_of_not_crlf h, flatMap_lf_of_not_crlf h]

/-! ## Places -/

/-- The bytes that a place takes up in a text. -/
def Location.bytesIn (place : Location) (t : Text) : List UInt8 :=
  (t.bytes.drop place.offset).take place.length

namespace SourceView

variable {v : SourceView} {number : Nat} {line : Text}

theorem offset_location (h : v.source.lines[number]? = some line) (column : Nat) :
    (v.location (number + 1) (column + 1)).offset =
      Text.byteSize ((v.source.lines.take number).flatMap (· ++ v.source.ending.text)) +
        Text.byteSize (line.take column) := by
  simp [location, offsetOf, byteIndex, h]

theorem length_location (h : v.source.lines[number]? = some line) (column : Nat) :
    (v.location (number + 1) (column + 1)).length = Text.byteSize (line.drop column) := by
  have hsum := Text.byteSize_append (line.take column) (line.drop column)
  rw [List.take_append_drop] at hsum
  simp only [location, lengthOf, byteIndex, Nat.add_sub_cancel, h, Option.map_some,
    Option.getD_some]
  omega

end SourceView

/-- **Where a reported place is.** For a line of a text, and a number of columns before the place, the
length is that of the rest of the line. The offset counts what stands above, with a carriage return
before every line feed if the text holds any `\r\n`. So it is the place of the line exactly if the
text holds none, or the line feeds above are all behind carriage returns; and then the bytes at the
place are those of the rest of the line. -/
theorem location_exact_iff (root p : Path) {t line : Text} {number : Nat}
    (h : t.lines[number]? = some line) (column : Nat) :
    ∃ above, t.LineAt number above line ∧
      ((SourceView.ofRoot root (.ofText p t)).location (number + 1) (column + 1)).length =
        Text.byteSize (line.drop column) ∧
      ((SourceView.ofRoot root (.ofText p t)).location (number + 1) (column + 1)).offset =
        Text.byteSize (if LineEnding.crlf.text <:+: t then above.withReturns else above) +
          Text.byteSize (line.take column) ∧
      (((SourceView.ofRoot root (.ofText p t)).location (number + 1) (column + 1)).offset =
          Text.byteSize (above ++ line.take column) ↔
        (LineEnding.crlf.text <:+: t → above.FeedsReturned)) ∧
      ((LineEnding.crlf.text <:+: t → above.FeedsReturned) →
        ((SourceView.ofRoot root (.ofText p t)).location (number + 1) (column + 1)).bytesIn t =
          Text.bytes (line.drop column)) := by
  obtain ⟨ended, below, htext, hnumber, hlines⟩ := exists_lineAt h
  have hat : t.LineAt number (ended.flatMap EndedLine.text) line := by
    rw [htext, ← hnumber]
    exact EndedLine.lineAt ended line below
  set place := (SourceView.ofRoot root (.ofText p t)).location (number + 1) (column + 1)
  have hlength : place.length = Text.byteSize (line.drop column) :=
    SourceView.length_location h column
  have hoffset : place.offset =
      Text.byteSize (if LineEnding.crlf.text <:+: t
        then Text.withReturns (ended.flatMap EndedLine.text) else ended.flatMap EndedLine.text) +
          Text.byteSize (line.take column) := by
    have hcounted : place.offset = _ := SourceView.offset_location h column
    have habove := byteSize_lines_above p ended (line ++ below)
    rw [← htext, ← hlines] at habove
    rw [hcounted, ← habove]
    rfl
  have hexact : place.offset = Text.byteSize (ended.flatMap EndedLine.text ++ line.take column) ↔
      (LineEnding.crlf.text <:+: t → Text.FeedsReturned (ended.flatMap EndedLine.text)) := by
    rw [hoffset, Text.byteSize_append, Nat.add_right_cancel_iff]
    split
    · next hcrlf => simp [hcrlf, Text.byteSize_withReturns_iff]
    · next hcrlf => simp [hcrlf]
  refine ⟨ended.flatMap EndedLine.text, hat, hlength, hoffset, hexact, fun hreturned => ?_⟩
  rw [Location.bytesIn, hexact.2 hreturned, hlength]
  -- the part of the line before the place belongs to what stands before it
  have hparts : t = (ended.flatMap EndedLine.text ++ line.take column) ++
      (line.drop column ++ below) := by
    conv_lhs => rw [htext, ← List.take_append_drop column line]
    simp only [List.append_assoc]
  conv_lhs => rw [hparts]
  exact Text.take_drop_bytes _ _ below

/-- A place behind characters of several bytes, below a line that ends in `\r\n`. -/
theorem location_exact_multibyte :
    (Text.lines "é\r\naéb\r\n")[1]? = some "aéb".toList ∧
    ∃ above, Text.LineAt "é\r\naéb\r\n" 1 above "aéb" ∧
      ((SourceView.ofRoot "." (.ofText "a.js" "é\r\naéb\r\n")).location 2 3).length = 1 ∧
      ((SourceView.ofRoot "." (.ofText "a.js" "é\r\naéb\r\n")).location 2 3).offset =
        Text.byteSize (above ++ ['a', 'é']) ∧
      ((SourceView.ofRoot "." (.ofText "a.js" "é\r\naéb\r\n")).location 2 3).bytesIn
        "é\r\naéb\r\n" = Text.bytes ['b'] := by
  have hline : (Text.lines "é\r\naéb\r\n")[1]? = some "aéb".toList := by decide +kernel
  have hall : Text.FeedsReturned "é\r\naéb\r\n" :=
    (Text.withReturns_eq_self_iff _).1 (by decide +kernel)
  obtain ⟨above, hat, hlength, -, hexact, hbytes⟩ := location_exact_iff "." "a.js" hline 2
  obtain ⟨below, htext⟩ := hat.text
  have habove : above.FeedsReturned := Text.FeedsReturned.of_append (htext ▸ hall)
  exact ⟨hline, above, hat, hlength, hexact.2 fun _ => habove, hbytes fun _ => habove⟩

/-- Below a bare line feed in a file with a `\r\n` further down, a place is one byte too far: at the
end of its line instead of the start. -/
theorem location_below_bare_feed :
    (Text.lines "a\nb\r\n")[1]? = some "b".toList ∧
      ((SourceView.ofRoot "." (.ofText "a.sol" "a\nb\r\n")).location 2 1).bytesIn "a\nb\r\n" ≠
        Text.bytes "b" := by
  rw [Location.bytesIn, Text.bytes_eq_flatMap, Text.bytes_eq_flatMap]
  decide +kernel

end ContractLint
