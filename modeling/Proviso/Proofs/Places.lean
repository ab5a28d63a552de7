import Mathlib.Data.List.TakeWhile
import Proviso.Proofs.Numerals
import Proviso.Proofs.Occurrences

/-!
# Places that diagnostics print

A diagnostic prints the file with a line and a column (`Cites`). The line counts the pieces of the
text between newlines, and the column the characters of such a piece; so the two give a place in the
text, and what stands from there on (`TextFrom`). For the place behind a first part of the text they
are the newlines in that part and the characters behind its last newline (`textFrom_lineColumn`).

Main statement: what stands at the printed place is the piece of text that the error is about
(`render_points_at_text`).
-/

namespace Proviso.Diagnostic

open Token (byteLength byteLength_cons byteLength_eq)

/-! ### Lines and columns -/

/-- The text from a line and a column on, both counted from one. -/
def TextFrom (source : List Char) (line column : Nat) (text : List Char) : Prop :=
  ∃ above left right below, source.splitOn '\n' = above ++ (left ++ right) :: below ∧
    line = above.length + 1 ∧ column = left.length + 1 ∧ text = ['\n'].intercalate (right :: below)

/-- There is one line more than there are line ends. -/
theorem length_splitOn_newline (cs : List Char) :
    (cs.splitOn '\n').length = cs.count '\n' + 1 := by
  induction cs with
  | nil => rfl
  | cons c cs ih =>
    rw [List.splitOn_cons_eq_if_modifyHead, List.count_cons]
    split
    · rw [List.length_cons, ih]
    · rw [List.length_modifyHead, ih]

/-- Characters in front of the first newline go to the first line. -/
theorem splitOn_append_of_not_mem {left text right : List Char} {below : List (List Char)}
    (hleft : '\n' ∉ left) (h : text.splitOn '\n' = right :: below) :
    (left ++ text).splitOn '\n' = (left ++ right) :: below := by
  induction left with
  | nil => exact h
  | cons c left ih =>
    have hc : ¬ (c == '\n') = true := by
      rw [beq_iff_eq]
      exact Ne.symm (List.ne_of_not_mem_cons hleft)
    rw [List.cons_append, List.splitOn_cons_eq_if_modifyHead, if_neg hc,
      ih (List.not_mem_of_not_mem_cons hleft)]
    rfl

/-- A text with a newline has a last line behind one. -/
theorem exists_last_line {cs : List Char} (h : '\n' ∈ cs) :
    ∃ above left, cs = above ++ '\n' :: left ∧ '\n' ∉ left := by
  obtain ⟨l, r, hr, hl⟩ := List.eq_append_cons_of_mem (List.mem_reverse.mpr h)
  refine ⟨r.reverse, l.reverse, ?_, mt List.mem_reverse.mp hl⟩
  rw [← List.reverse_reverse cs, hr]
  simp

/-- At the line and column of an offset stands the text behind it. -/
theorem textFrom_lineColumn (before text : List Char) :
    TextFrom (before ++ text) (lineColumn before).1 (lineColumn before).2 text := by
  obtain ⟨right, below, hlines⟩ :=
    List.exists_cons_of_ne_nil (List.splitOn_ne_nil '\n' text)
  have htext : text = ['\n'].intercalate (right :: below) := by
    rw [← hlines, List.intercalate_splitOn]
  unfold lineColumn
  by_cases hnl : '\n' ∈ before
  · obtain ⟨above, left, rfl, hleft⟩ := exists_last_line hnl
    have hleft' : '\n' ∉ left.reverse := mt List.mem_reverse.mp hleft
    refine ⟨above.splitOn '\n', left, right, below, ?_, ?_, ?_, htext⟩
    · rw [List.append_assoc, List.cons_append, List.splitOn_append_cons_self,
        splitOn_append_of_not_mem hleft hlines]
    · rw [length_splitOn_newline, List.count_append, List.count_cons_self,
        List.count_eq_zero.mpr hleft]
    · rw [List.reverse_append, List.reverse_cons, List.append_assoc, List.singleton_append,
        takeWhile_bne_append hleft', List.length_reverse]
  · refine ⟨[], before, right, below, splitOn_append_of_not_mem hnl hlines, ?_, ?_, htext⟩
    · rw [List.count_eq_zero.mpr hnl]
      rfl
    · have hall := bne_of_not_mem (mt List.mem_reverse.mp hnl)
      rw [List.takeWhile_eq_self_iff.mpr hall, List.length_reverse]

/-! ### What is printed -/

/-- The diagnostic of an error in a file names a line and a column. -/
def Cites (diagnostic file : String) (e : CompileError) (line column : Nat) : Prop :=
  ∃ rest, diagnostic = "error: " ++ e.message ++ "\n" ++ " --> " ++ file ++ ":" ++ Nat.repr line
    ++ ":" ++ Nat.repr column ++ "\n" ++ rest

/-- A number ends where its digits do. -/
theorem number_eq_of_append_eq {n m : Nat} {c : Char} {mark t t' : String}
    (hm : mark.toList = [c]) (hc : isDigit c = false)
    (h : Nat.repr n ++ (mark ++ t) = Nat.repr m ++ (mark ++ t')) : n = m ∧ t = t' := by
  obtain ⟨hn, ht⟩ := parts_eq_of_append_eq hm (not_mem_of_isDigit (isDigit_repr n) hc)
    (not_mem_of_isDigit (isDigit_repr m) hc) (by rwa [String.append_assoc, String.append_assoc])
  exact ⟨repr_inj hn, ht⟩

variable {file source token : String} {e : CompileError} {line column : Nat}

/-- A line and a column are printed if there is a place, and they are those of the place. -/
theorem cites_render_iff :
    Cites (render file source e) file e line column ↔
      ∃ before, place? source e = some before ∧ lineColumn before = (line, column) := by
  unfold Cites render
  constructor
  · rintro ⟨rest, h⟩
    cases hp : place? source e with
    | none =>
      simp only [hp, String.append_assoc, String.append_right_inj] at h
      have hhead := congrArg (·.toList.head?) h
      simp at hhead
    | some before =>
      refine ⟨before, rfl, ?_⟩
      simp only [hp, String.append_assoc, String.append_right_inj] at h
      obtain ⟨hline, h⟩ := number_eq_of_append_eq (c := ':') rfl (by decide) h
      obtain ⟨hcolumn, -⟩ := number_eq_of_append_eq (c := '\n') rfl (by decide) h
      exact Prod.ext hline hcolumn
  · rintro ⟨before, hp, hplace⟩
    simp only [hp, hplace]
    exact ⟨_, by simp only [String.append_assoc]; rfl⟩

/-! ### The text at the place -/

/-- An error with a culprit is placed where that token is located. -/
theorem place?_of_culprit? (h : e.culprit? = some token) :
    place? source e = locate source token := by
  unfold place?
  split
  · cases h
  · rw [h]
    rfl

/-- The bytes of a beginning of a text are that beginning. -/
theorem takeBytes_byteLength (part rest : List Char) :
    takeBytes (byteLength part) (part ++ rest) = part := by
  induction part with
  | nil => cases rest <;> rfl
  | cons c part ih =>
    have hpos : c.utf8Size + byteLength part ≠ 0 :=
      Nat.ne_of_gt (Nat.add_pos_left c.utf8Size_pos _)
    rw [byteLength_cons, List.cons_append, takeBytes, if_neg hpos, Nat.add_sub_cancel_left, ih]

/-- **Diagnostics point at the text that they are about.** Take any text and file name. If the
diagnostic of an error that names a token prints a line and a column, the text has the token there,
with no letter, number or underscore on either side of it. If the text has no tokens since a block
comment is not closed, the diagnostic of that error prints a line and a column, and the text has the
start of that comment there. -/
theorem render_points_at_text (file source : String) :
    (∀ (e : CompileError) (token : String) (line column : Nat), e.culprit? = some token →
      Cites (render file source e) file e line column →
      ∃ before after, Whole source.toList token.toList before after ∧
        TextFrom source.toList line column (token.toList ++ after)) ∧
    ∀ offset, Token.tokenize source = .error (.unterminatedComment offset) →
      ∃ line column part code body,
        Cites (render file source (.unterminatedComment offset)) file
          (.unterminatedComment offset) line column ∧
        TextFrom source.toList line column ('/' :: '*' :: body) ∧
        source.toList = part ++ '/' :: '*' :: body ∧
        Token.Uncommented part code ('/' :: '*' :: body) ∧ ¬ ['*', '/'] <:+: body := by
  constructor
  · intro e token line column htoken hcites
    obtain ⟨before, hplace, hline⟩ := cites_render_iff.mp hcites
    rw [place?_of_culprit? htoken] at hplace
    obtain ⟨after, hw⟩ := locate_sound hplace
    refine ⟨before, after, hw, ?_⟩
    have htext := textFrom_lineColumn before (token.toList ++ after)
    rwa [hline, ← hw.split] at htext
  · intro offset herror
    obtain ⟨part, code, body, hsource, hpart, hbody, he⟩ :=
      (Token.tokenize_eq_error_iff source _).mp herror
    cases he
    have hplace : place? source (.unterminatedComment (String.ofList part).utf8ByteSize)
        = some part := by
      rw [place?, ← byteLength_eq, hsource, takeBytes_byteLength]
    refine ⟨_, _, part, code, body, cites_render_iff.mpr ⟨part, hplace, rfl⟩, ?_, hsource, hpart,
      hbody⟩
    rw [hsource]
    exact textFrom_lineColumn part _

/-- The token occurs twice in the second line, first behind a letter that takes two bytes. -/
theorem render_points_at_text_behind_letter :
    let source := "é ≠ α\n\tβfrob frob\n"
    let e := CompileError.unknownCommand "frob"
    Cites (render "cond.txt" source e) "cond.txt" e 2 8 ∧
      ∃ before after, Whole source.toList "frob".toList before after ∧
        TextFrom source.toList 2 8 ("frob".toList ++ after) := by
  intro source e
  have hcites : Cites (render "cond.txt" source e) "cond.txt" e 2 8 :=
    ⟨"  |\n   2 | \tβfrob frob\n  |        ^\n", by decide +kernel⟩
  exact ⟨hcites, (render_points_at_text "cond.txt" source).1 e "frob" 2 8 rfl hcites⟩

end Proviso.Diagnostic
