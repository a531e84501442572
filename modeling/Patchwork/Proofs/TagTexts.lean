import Patchwork.Proofs.DocumentPlaces
import Patchwork.Proofs.Excerpts
import Patchwork.Proofs.Growth
import Patchwork.Proofs.RegionState

/-!
# The texts of tags

Each mode has its own idea of where a tag begins, but all of them leave the cursor in the same place:
behind the `<`, or, where a comment ends, behind its `-->` (`Region.closer`). The rest of a tag is
read from there, and its name with it.
-/

namespace Patchwork

open Compile List Scan

/-! ## Readers -/

namespace Scan

variable {c c' : Cursor} {t : Text}

theorem expect_eq (h : expect t c = .ok () c') : c.rest = t ++ c'.rest := by
  unfold expect at h
  split at h
  next hstarts =>
    cases h
    exact (prefix_iff_eq_append.mp (List.isPrefixOf_iff_prefix.mp hstarts)).symm
  · cases h

theorem skipBlanks_eq (h : skipBlanks false c = .ok t c') :
    c.rest = t ++ c'.rest ∧ t.all Text.isBlank = true := by
  have hread := lexeme_eq h
  have hrest : c'.rest = c.rest.dropWhile Text.isBlank := skipBlanks_rest (fun h => by cases h) h
  have hblanks : t = c.rest.takeWhile Text.isBlank := by
    refine append_cancel_right (hread.symm.trans ?_)
    rw [hrest]
    exact takeWhile_append_dropWhile.symm
  refine ⟨hread, ?_⟩
  rw [hblanks]
  exact all_takeWhile

/-- The text of a closing tag behind its `<`. -/
theorem readClosingTag_eq {name : Text} (h : readClosingTag c = .ok name c') :
    ∃ blanks, blanks.all Text.isBlank = true ∧
      c.rest = '/' :: (name ++ (blanks ++ '>' :: c'.rest)) := by
  obtain ⟨_, c1, hslash, h⟩ := bind_eq_ok h
  obtain ⟨name', c2, hname, h⟩ := bind_eq_ok h
  obtain ⟨_, c3, hblanks, h⟩ := bind_eq_ok h
  obtain ⟨_, c4, hend, h⟩ := bind_eq_ok h
  cases h
  obtain ⟨blanks, hblanks⟩ := discard_eq_ok hblanks
  obtain ⟨hrest, hblank⟩ := skipBlanks_eq hblanks
  refine ⟨blanks, hblank, ?_⟩
  rw [expect_eq hslash, readWhile_eq hname, hrest, expect_eq hend]
  rfl

end Scan

/-! ## Modes and their tags -/

/-- What a region of the mode ends with: the `<` of its closing tag, or the end of a comment. -/
def Mode.closer : Mode → Text
  | .comment => "-->"
  | _ => "<"

/-- What follows the call of an element in a region of the mode. -/
def Mode.terminator : Mode → Text
  | .code => []
  | _ => ";"

instance {α : Type} (f : Output → Output × α) : Keeps Session.cursor (onOutput f) where
  kept := by
    rintro s _ _ ⟨⟩
    rfl

namespace Region

theorem lasting_eq (r : Region) : r.lasting = (r.mode != .stylesheet) := by
  cases r with
  | markup r =>
    obtain ⟨chain, statements, _ | _⟩ := r
    · rfl
    · rfl
  | code | script | stylesheet | comment => rfl

theorem lasting_congr {r r' : Region} (h : r'.mode = r.mode) : r'.lasting = r.lasting := by
  rw [lasting_eq, lasting_eq, h]

theorem elementTerminator_mode (r : Region) : r.elementTerminator = r.mode.terminator := by
  cases r with
  | markup r =>
    obtain ⟨chain, statements, _ | _⟩ := r
    · rfl
    · rfl
  | code | script | stylesheet | comment => rfl

theorem closer_mode (r : Region) : r.closer = r.mode.closer := by
  cases r with
  | markup r =>
    obtain ⟨chain, statements, _ | _⟩ := r
    · rfl
    · rfl
  | code | script | stylesheet | comment => rfl

/-- Only regions that keep what they have written have children. -/
theorem step_lasting (r : Region) (s : Session) :
    Gives r.step s fun p _ => p.2 = .child → r.lasting = true := by
  cases r with
  | stylesheet r => exact (r.step_childless s).bind fun p s' h => .pure fun hchild => absurd hchild h
  | code | markup | script | comment => exact ⟨rfl, fun _ _ _ _ => rfl⟩

end Region

/-! ## Start tags -/

namespace StartTag

/-- The attributes of a tag are read up to its `>`. -/
theorem readAttributes_text (fuel : Nat) (tag : StartTag) (s : Session) :
    Gives (tag.readAttributes fuel) s fun tag' s' => tag'.name = tag.name ∧ s.ReadPast ">" s' := by
  induction fuel generalizing tag s with
  | zero => exact .throw _
  | succ fuel ih =>
    refine .wrote fun _ s1 hw1 => ?_
    refine ((Agree.scan fun empty c h => readText_cases h).and .of_made).bind fun empty s2 ⟨hempty, hw2⟩ => ?_
    rcases hempty with ⟨rfl, hrest⟩ | ⟨rfl, -⟩
    · exact .pure ⟨rfl, .after hw1.forward ⟨"/", hrest⟩⟩
    refine ((Agree.scan fun ends c h => readIf_eq h).and .of_made).bind fun ends s3 ⟨hends, hw3⟩ => ?_
    rcases hends with ⟨rfl, hrest⟩ | ⟨rfl, -⟩
    · exact .pure ⟨rfl, .after (hw1.trans hw2).forward ⟨[], hrest⟩⟩
    refine .wrote fun c s4 hw4 => ?_
    split
    · exact .fail ..
    refine ((tag.readAttribute_keeps s4).and .of_made).bind fun tag1 s5 ⟨⟨hname, _⟩, hw5⟩ => ?_
    refine (ih tag1 s5).mono fun tag' s' ⟨hname', hread⟩ => ⟨hname'.trans hname, ?_⟩
    exact hread.after (hw1.trans (hw2.trans (hw3.trans (hw4.trans hw5)))).forward

theorem read_text (at_ : Nat) (s : Session) : Gives (read at_) s fun tag s' =>
      ∃ t, s.cursor.rest = tag.name ++ (t ++ '>' :: s'.cursor.rest) := by
  refine (Agree.scan fun name c h => readWhile_eq h).bind fun name s1 h1 => ?_
  refine .keeping id fun stop s2 h2 => ?_
  cases h2
  refine .keeping id fun c s3 h3 => ?_
  cases h3
  refine (readAttributes_text _ _ s1).mono ?_
  rintro tag s' ⟨hname, t, ht⟩
  refine ⟨t, ?_⟩
  rw [h1, ht, hname]
  rfl

end StartTag

end Patchwork
