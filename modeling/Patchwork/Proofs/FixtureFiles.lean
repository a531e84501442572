import Patchwork.Fixture
import Patchwork.Proofs.Returning
import Patchwork.Proofs.TextDocuments

/-!
# Fixture files

A fixture file has a line `---`, its header, another line `---`, and the document with a line break
behind it (`Fixture.file`). Lines end in a line feed, with or without a carriage return before it, and
byte order marks may stand in front of everything.

Main result: `Fixture.file_read_back`. The header and the document are taken out of a file exactly as
they were put in, whatever the line breaks are. The second line is found as the first line break with
`---` behind it: it cannot be found too early, since a header with no such place cannot end in the
middle of one (`indexOf?_append`).
-/

namespace Patchwork

open List Text

/-- The ways to end a line. -/
inductive LineBreak where
  | feed
  | returnFeed

namespace LineBreak

def lead : LineBreak → Text
  | feed => []
  | returnFeed => ['\r']

def text (b : LineBreak) : Text :=
  b.lead ++ ['\n']

end LineBreak

/-- What occurs nowhere in a text is searched for behind it, if no occurrence can begin in the text and
go on behind it. -/
theorem Text.indexOf?_append {c : Char} {p t rest : Text} (ht : holds (c :: p) t = false)
    (hrest : ∀ e ∈ rest.head?, e ∉ p) :
    indexOf? (c :: p) (t ++ rest) = (indexOf? (c :: p) rest).map (· + t.length) := by
  induction t with
  | nil => exact Option.map_id'.symm
  | cons d t ih =>
    obtain ⟨hhere, hlater⟩ := TextDocument.holds_cons ht
    have hnot : ¬startsWith (c :: p) (d :: (t ++ rest)) = true := by
      intro hstarts
      obtain ⟨rfl, back, hback⟩ := cons_prefix_cons.mp (List.isPrefixOf_iff_prefix.mp hstarts)
      have hinside : ¬p <+: t := by
        intro h
        have hstarts : startsWith (c :: p) (c :: t) = true :=
          isPrefixOf_iff_prefix.mpr (cons_prefix_cons.mpr ⟨rfl, h⟩)
        rw [hhere] at hstarts
        cases hstarts
      rcases append_eq_append_iff.mp hback with ⟨u, hu, -⟩ | ⟨u, rfl, rfl⟩
      · exact hinside ⟨u, hu.symm⟩
      · cases u with
        | nil => exact hinside (by simp)
        | cons e u => exact hrest e rfl (mem_append_right _ mem_cons_self)
    rw [cons_append, indexOf?, if_neg hnot, ih hlater, Option.map_map]
    rfl

namespace Fixture

def file (marks : Nat) (opened closed after final : LineBreak) (header source : Text) : Text :=
  replicate marks '\ufeff' ++ ("---" ++ (opened.text ++ (header ++ (closed.text ++
    ("---" ++ (after.text ++ (source ++ final.text)))))))

variable (b : LineBreak)

theorem dropBreak_text (t : Text) : dropBreak (b.text ++ t) = t := by
  cases b <;> rfl

/-- There is no delimiter behind a line break where there is none at all. -/
theorem indexOf?_dropBreak {t : Text} (h : holds "\n---" t = false) :
    indexOf? "\n---" (dropBreak t) = none := by
  have hnone {t : Text} (h : holds "\n---" t = false) : indexOf? "\n---" t = none :=
    Option.isSome_eq_false_iff.mp h |> Option.isNone_iff_eq_none.mp
  unfold dropBreak
  split
  · exact hnone (TextDocument.holds_cons h).2
  · exact hnone (TextDocument.holds_cons (TextDocument.holds_cons h).2).2
  · exact hnone h

theorem dropReturns_lead {t : Text} (h : t.getLast? ≠ some '\r') :
    dropReturns (t ++ b.lead) = t := by
  have hstop : t.reverse.dropWhile (· == '\r') = t.reverse := by
    cases hr : t.reverse with
    | nil => rfl
    | cons d u =>
      refine dropWhile_cons_of_neg fun hd => h ?_
      rw [← head?_reverse, hr, head?_cons, eq_of_beq hd]
  have hlead : ∀ d ∈ b.lead.reverse, (d == '\r') = true := by
    cases b with
    | feed => exact forall_mem_nil _
    | returnFeed => exact forall_mem_singleton.mpr rfl
  rw [dropReturns, reverse_append, dropWhile_append_of_pos hlead, hstop, reverse_reverse]

theorem dropFinalBreak_text {t : Text} (h : t.getLast? ≠ some '\r') :
    dropFinalBreak (t ++ b.text) = t := by
  have hend : endsWithChar '\n' (t ++ b.text) = true := by
    rw [LineBreak.text, ← append_assoc, endsWithChar, getLast?_concat]
    rfl
  rw [dropFinalBreak, if_pos hend, LineBreak.text, ← append_assoc, dropLast_concat, dropReturn]
  cases b with
  | feed =>
    rw [LineBreak.lead, append_nil, endsWithChar, if_neg fun hr => h (eq_of_beq hr)]
  | returnFeed =>
    have hreturn : endsWithChar '\r' (t ++ ['\r']) = true := by
      rw [endsWithChar, getLast?_concat]
      rfl
    rw [LineBreak.lead, if_pos hreturn, dropLast_concat]

theorem indexOf?_closing {header : Text} (h : holds "\n---" header = false) (more : Text) :
    indexOf? "\n---" (header ++ (b.text ++ ("---" ++ more))) =
      some (b.lead.length + header.length) := by
  have hhead : ∀ e ∈ (b.text ++ ("---" ++ more)).head?, e ∉ ("---" : Text) := by
    cases b <;> rintro e ⟨⟩ <;> decide
  have hfound : indexOf? "\n---" (b.text ++ ("---" ++ more)) = some b.lead.length := by
    cases b <;> rfl
  have hbehind := Text.indexOf?_append (c := '\n') (p := "---") h hhead
  exact hbehind.trans (congrArg (Option.map (· + header.length)) hfound)

theorem dropWhile_marks (marks : Nat) {t : Text} (h : t.head? ≠ some '\ufeff') :
    (replicate marks '\ufeff' ++ t).dropWhile (· == '\ufeff') = t := by
  have hmarks : ∀ d ∈ replicate marks '\ufeff', (d == '\ufeff') = true :=
    fun d hd => beq_iff_eq.mpr (eq_of_mem_replicate hd)
  rw [dropWhile_append_of_pos hmarks]
  cases t with
  | nil => rfl
  | cons d t => exact dropWhile_cons_of_neg fun hd => h (congrArg some (eq_of_beq hd))

variable {header source : Text}

theorem split_file (marks : Nat) (opened closed after final : LineBreak)
    (hheader : holds "\n---" header = false) (hreturn : header.getLast? ≠ some '\r')
    (hsource : source.getLast? ≠ some '\r') :
    split (file marks opened closed after final header source) = .ok (header, source) := by
  unfold split file
  rw [dropWhile_marks marks (by rintro ⟨⟩), Returning.after?_append]
  dsimp only
  rw [dropBreak_text, indexOf?_closing closed hheader]
  have htake : (header ++ (closed.text ++ ("---" ++ (after.text ++ (source ++ final.text))))).take
      (closed.lead.length + header.length) = header ++ closed.lead := by
    rw [LineBreak.text, append_assoc, ← append_assoc header]
    exact take_left' (by rw [length_append, Nat.add_comm])
  have hdrop : (header ++ (closed.text ++ ("---" ++ (after.text ++ (source ++ final.text))))).drop
      (closed.lead.length + header.length + 4) = after.text ++ (source ++ final.text) := by
    rw [LineBreak.text, append_assoc, ← append_assoc header, ← append_assoc ['\n'],
      ← append_assoc (header ++ closed.lead)]
    refine drop_left' ?_
    simp only [length_append]
    exact congrArg (· + 4) (Nat.add_comm ..)
  dsimp only
  rw [htake, hdrop, dropReturns_lead closed hreturn, dropBreak_text, dropFinalBreak_text final hsource]

/-- The header of a file is read as it was written, and the document is what was written; a file without
the line before its header, or without the one behind it, is none. -/
theorem file_read_back :
    (∀ marks opened closed after final header source, holds "\n---" header = false →
      header.getLast? ≠ some '\r' → source.getLast? ≠ some '\r' →
      split (file marks opened closed after final header source) = .ok (header, source) ∧
      parse (file marks opened closed after final header source) =
        match (Toml.parse? header).bind expectation? with
        | some expectation => .ok { expectation, source }
        | none => .error .malformed) ∧
    ∀ marks : Nat,
      (∀ content : Text, content.head? ≠ some '\ufeff' → ¬("---" : Text) <+: content →
        parse (replicate marks '\ufeff' ++ content) = .error .openingMissing) ∧
      ∀ rest : Text, holds "\n---" rest = false →
        parse (replicate marks '\ufeff' ++ ("---" ++ rest)) = .error .closingMissing := by
  refine ⟨fun marks opened closed after final header source hheader hreturn hsource => ?_,
    fun marks => ⟨fun content hmark hopening => ?_, fun rest hclosing => ?_⟩⟩
  · have hsplit := split_file marks opened closed after final hheader hreturn hsource
    refine ⟨hsplit, ?_⟩
    unfold parse
    rw [hsplit]
    show (match (Toml.parse? header).bind expectation? with | some e => _ | none => _) = _
    cases (Toml.parse? header).bind expectation? <;> rfl
  · have hsplit : split (replicate marks '\ufeff' ++ content) = .error .openingMissing := by
      have hnone : after? "---" content = none :=
        if_neg fun h => hopening (List.isPrefixOf_iff_prefix.mp h)
      rw [split, dropWhile_marks marks hmark, hnone]
    rw [parse, hsplit]
    rfl
  · have hsplit : split (replicate marks '\ufeff' ++ ("---" ++ rest)) = .error .closingMissing := by
      rw [split, dropWhile_marks marks (by rintro ⟨⟩), Returning.after?_append]
      dsimp only
      rw [indexOf?_dropBreak hclosing]
    rw [parse, hsplit]
    rfl

/-- A header and a document of dashes and line breaks, with both kinds of line breaks around them. -/
theorem file_read_back_dashes :
    holds "\n---" "---\n--" = false ∧ ("---\n--" : Text).getLast? ≠ some '\r' ∧
      ("\n---\n" : Text).getLast? ≠ some '\r' ∧
      split (file 2 .feed .returnFeed .feed .returnFeed "---\n--" "\n---\n") =
        .ok ("---\n--", "\n---\n") ∧
      parse "\ufeff--" = .error .openingMissing ∧ parse "---\n--" = .error .closingMissing := by
  have hheader : holds "\n---" "---\n--" = false := by decide
  have hlast : ("---\n--" : Text).getLast? ≠ some '\r' := by decide
  have hsource : ("\n---\n" : Text).getLast? ≠ some '\r' := by decide
  exact ⟨hheader, hlast, hsource,
    (file_read_back.1 2 .feed .returnFeed .feed .returnFeed _ _ hheader hlast hsource).1,
    (file_read_back.2 1).1 "--" (by decide) (by decide),
    (file_read_back.2 0).2 "\n--" (by decide)⟩

end Fixture
end Patchwork
