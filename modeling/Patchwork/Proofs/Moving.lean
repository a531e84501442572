import Patchwork.Tag

/-!
# Steps forward

A cursor only ever moves forward: whatever is read, it stands afterwards some characters further on
in the same text (`Cursor.Moved`), and its searches pass over what they passed over before
(`Cursor.Ahead`). `Scan.Forward` says this of a step, and is found by instance search: there is an
instance for each of the ways to move a cursor, and for putting steps together.
-/

namespace Patchwork

open List Text

/-- What does not occur in a front stands behind it. -/
theorem exists_append_of_not_mem {α : Type} {a b c d : List α} {x : α} (h : a ++ b = c ++ x :: d)
    (hx : x ∉ a) : ∃ m, c = a ++ m ∧ b = m ++ x :: d := by
  rcases append_eq_append_iff.mp h with hsplit | ⟨m, rfl, hm⟩
  · exact hsplit
  · cases m with
    | nil => exact ⟨[], by simp, hm.symm⟩
    | cons y m =>
      cases hm
      exact absurd (mem_append_right _ mem_cons_self) hx

namespace Text

theorem bytes_append (t u : Text) : bytes (t ++ u) = bytes t + bytes u := by
  induction t with
  | nil => exact (Nat.zero_add _).symm
  | cons c t ih => rw [cons_append, bytes, bytes, ih, Nat.add_assoc]

/-- Of two fronts of a text, the longer one goes on from the other. -/
theorem exists_append_of_bytes_le {a b c d : Text} (h : a ++ b = c ++ d) (hle : bytes a ≤ bytes c) :
    ∃ m, c = a ++ m ∧ b = m ++ d := by
  rcases append_eq_append_iff.mp h with hsplit | ⟨m, rfl, rfl⟩
  · exact hsplit
  · cases m with
    | nil => exact ⟨[], by simp, rfl⟩
    | cons e m =>
      have hsize := e.utf8Size_pos
      rw [bytes_append, bytes] at hle
      omega

theorem bytes_reverse (t : Text) : bytes t.reverse = bytes t := by
  induction t with
  | nil => rfl
  | cons c t ih =>
    rw [reverse_cons, bytes_append, ih, Nat.add_comm]
    rfl

theorem cut?_append (t u : Text) : cut? (bytes t) (t ++ u) = some (t, u) := by
  induction t with
  | nil => cases u <;> rfl
  | cons c t ih =>
    obtain ⟨n, hn⟩ := Nat.exists_eq_add_of_lt c.utf8Size_pos
    have hbytes : bytes (c :: t) = n + bytes t + 1 := by
      rw [bytes]
      omega
    have hleft : n + bytes t + 1 - c.utf8Size = bytes t := by omega
    rw [hbytes, cons_append, cut?, if_pos (by omega), hleft, ih]
    rfl

theorem slice?_append (t u v : Text) : slice? (bytes t) (bytes (t ++ u)) (t ++ u ++ v) = some u := by
  have hle : bytes (t ++ u) ≤ bytes (t ++ u ++ v) := by
    rw [bytes_append (t ++ u)]
    exact Nat.le_add_right ..
  have hle' : bytes t ≤ bytes (t ++ u ++ v) := by
    rw [bytes_append t] at hle
    omega
  rw [slice?, Nat.min_eq_left hle, Nat.min_eq_left hle', cut?_append]
  show (cut? (bytes t) (t ++ u) >>= _) = _
  rw [cut?_append]
  rfl

/-- What stands between two characters of one byte. -/
theorem inner?_eq {c d : Char} (hc : c.utf8Size = 1) (hd : d.utf8Size = 1) (t : Text) :
    inner? (c :: (t ++ [d])) = some t := by
  have hbytes : bytes (c :: (t ++ [d])) = bytes t + 2 := by
    rw [bytes, bytes_append, bytes, bytes]
    omega
  have hslice := slice?_append [c] t [d]
  rw [bytes_append, bytes, bytes, hc, Nat.add_zero] at hslice
  rw [inner?, hbytes]
  rw [Nat.add_comm 1] at hslice
  exact hslice

end Text

namespace Cursor

/-- A cursor stands some characters further on in the same text. -/
def Moved (c c' : Cursor) : Prop :=
  ∃ n, c'.base = c.base ∧ c'.past = (c.advance n).past ∧ c'.rest = (c.advance n).rest

theorem Moved.refl (c : Cursor) : c.Moved c := ⟨0, rfl, rfl, rfl⟩

theorem Moved.advance (c : Cursor) (n : Nat) : c.Moved (c.advance n) := ⟨n, rfl, rfl, rfl⟩

variable {a b c c' : Cursor}

theorem Moved.trans (hab : a.Moved b) (hbc : b.Moved c) : a.Moved c := by
  obtain ⟨n, hbase, hpast, hrest⟩ := hab
  obtain ⟨m, hbase', hpast', hrest'⟩ := hbc
  refine ⟨n + m, hbase'.trans hbase, ?_, ?_⟩
  · rw [hpast']
    simp only [Cursor.advance] at hpast hrest ⊢
    rw [hpast, hrest, take_add, reverse_append, append_assoc]
  · rw [hrest']
    simp only [Cursor.advance] at hrest ⊢
    rw [hrest, drop_drop]

/-- Only the text around the cursor counts. -/
theorem Moved.congr (hab : a.Moved b) (hbase : c.base = b.base) (hpast : c.past = b.past)
    (hrest : c.rest = b.rest) : a.Moved c :=
  hab.trans ⟨0, hbase, hpast, hrest⟩

theorem Moved.position_le (h : c.Moved c') : c.position ≤ c'.position := by
  obtain ⟨n, hbase, hpast, -⟩ := h
  rw [position, position, hpast, Cursor.advance, bytes_append]
  omega

/-- What has been passed and what lies ahead are together as long as before. -/
theorem Moved.position_add (h : c.Moved c') :
    c'.position + bytes c'.rest = c.position + bytes c.rest := by
  obtain ⟨n, hbase, hpast, hrest⟩ := h
  have htext := congrArg bytes (take_append_drop n c.rest)
  rw [bytes_append] at htext
  rw [position, position, hbase, hpast, hrest, Cursor.advance, bytes_append,
    bytes_reverse]
  dsimp only
  omega

theorem Moved.length_le (h : c.Moved c') : c'.rest.length ≤ c.rest.length := by
  obtain ⟨n, -, -, hrest⟩ := h
  rw [hrest, Cursor.advance, length_drop]
  exact Nat.sub_le ..

theorem Moved.rest_eq (h : c.Moved c') : ∃ t, c.rest = t ++ c'.rest := by
  obtain ⟨n, -, -, hrest⟩ := h
  refine ⟨c.rest.take n, ?_⟩
  rw [hrest]
  exact (take_append_drop n c.rest).symm

theorem position_advance (c : Cursor) (n : Nat) :
    (c.advance n).position = c.position + bytes (c.rest.take n) := by
  rw [position, position, advance, bytes_append, bytes_reverse, Nat.add_comm (bytes _),
    Nat.add_assoc]

/-- A cursor stands some characters further on, and is the same in what its searches pass over. -/
structure Ahead (c c' : Cursor) : Prop where
  moved : c.Moved c'
  options : c'.options = c.options

theorem Ahead.refl (c : Cursor) : c.Ahead c := ⟨.refl c, rfl⟩

theorem Ahead.advance (c : Cursor) (n : Nat) : c.Ahead (c.advance n) := ⟨.advance c n, rfl⟩

theorem Ahead.trans (hab : a.Ahead b) (hbc : b.Ahead c) : a.Ahead c :=
  ⟨hab.moved.trans hbc.moved, hbc.options.trans hab.options⟩

end Cursor

namespace Scan

open Cursor

/-- A step that moves the cursor forward, if at all. -/
class Forward {α : Type} (step : Scan α) : Prop where
  ahead : ∀ c a c', step c = .ok a c' → c.Ahead c'

variable {α β : Type}

theorem bind_ok {x : Scan α} {a : α} {c c1 : Cursor} (h : x c = .ok a c1) (f : α → Scan β) :
    (x >>= f) c = f a c1 := by
  show EStateM.bind x f c = _
  rw [EStateM.bind, h]

/-- A bind succeeds only if both steps do. -/
theorem bind_eq_ok {x : Scan α} {f : α → Scan β} {b : β} {c c' : Cursor}
    (h : (x >>= f) c = .ok b c') : ∃ a c1, x c = .ok a c1 ∧ f a c1 = .ok b c' := by
  replace h : EStateM.bind x f c = .ok b c' := h
  unfold EStateM.bind at h
  split at h
  next a c1 hx => exact ⟨a, c1, hx, h⟩
  · cases h

/-- A step that is known to end `n` characters further on. -/
theorem Forward.of_advance {step : Scan α}
    (h : ∀ c a c', step c = .ok a c' → ∃ n, c' = c.advance n) : Forward step := by
  refine ⟨fun c a c' hc => ?_⟩
  obtain ⟨n, rfl⟩ := h c a c' hc
  exact .advance c n

instance (a : α) : Forward (pure a) where
  ahead := by
    rintro c _ _ ⟨⟩
    exact .refl c

instance : Forward (get : Scan Cursor) where
  ahead := by
    rintro c _ _ ⟨⟩
    exact .refl c

theorem Forward.bind {x : Scan α} {f : α → Scan β} (hx : Forward x) (hf : ∀ a, Forward (f a)) :
    Forward (x >>= f) where
  ahead c b c' h := by
    obtain ⟨a, c1, h1, h2⟩ := bind_eq_ok h
    exact (hx.ahead c a c1 h1).trans ((hf a).ahead c1 b c' h2)

instance (x : Scan α) (f : α → Scan β) [hx : Forward x] [hf : ∀ a, Forward (f a)] :
    Forward (x >>= f) :=
  hx.bind hf

instance (x : Scan α) [Forward x] : Forward (discard x) :=
  inferInstanceAs (Forward (x >>= fun _ => pure ()))

instance (p : Prop) [Decidable p] (x y : Scan α) [Forward x] [Forward y] :
    Forward (if p then x else y) := by
  split <;> infer_instance

instance (x : Option α) : Forward (whole x) where
  ahead c a c' h := by
    cases x with
    | none => cases h
    | some _ =>
      cases h
      exact .refl c

instance (reader : Lexeme.Reader) : Forward (lexeme reader) :=
  .of_advance fun c a c' h => by
    unfold lexeme at h
    split at h
    next n _ =>
      cases h
      exact ⟨n, rfl⟩
    · cases h

instance (p : Char → Bool) : Forward (readWhile p) :=
  .of_advance fun c a c' h => by
    cases h
    exact ⟨_, rfl⟩

instance : Forward read :=
  .of_advance fun c a c' h => by
    cases h
    exact ⟨1, rfl⟩

instance (d : Char) : Forward (readIf d) where
  ahead c a c' h := by
    unfold readIf at h
    split at h <;> cases h
    · exact .advance c 1
    · exact .refl c

instance (t : Text) : Forward (readText t) where
  ahead c a c' h := by
    unfold readText at h
    split at h <;> cases h
    · exact .advance c _
    · exact .refl c

instance (t : Text) : Forward (expect t) where
  ahead c a c' h := by
    unfold expect at h
    split at h <;> cases h
    exact .advance c _

instance (chars : List Char) (keep consume : Bool) : Forward (find chars keep consume) where
  ahead c a c' h := by
    unfold find at h
    split at h
    · cases h
    next n _ =>
      dsimp only at h
      split at h <;> cases h
      · exact .advance c n
      · have hfound : c.Ahead { c.advance n with lastMatch := (c.advance n).position } :=
          ⟨(Moved.advance c n).congr rfl rfl rfl, rfl⟩
        split
        · exact hfound.trans (.advance _ 1)
        · exact hfound

instance (t : Text) (consume : Bool) : Forward (findText t consume) where
  ahead c a c' h := by
    unfold findText at h
    split at h <;> cases h
    · exact .advance c _
    · exact .advance c _

instance (comments : Bool) : Forward (skipBlanks comments) :=
  inferInstanceAs (Forward (lexeme _))

instance : Forward skipInlineBlanks :=
  inferInstanceAs (Forward (readWhile _))

instance : Forward skipString :=
  inferInstanceAs (Forward (lexeme _))

instance : Forward skipGroup :=
  inferInstanceAs (Forward (lexeme _))

instance : Forward readQuoted := by
  unfold readQuoted
  infer_instance

instance : Forward readEnclosed := by
  unfold readEnclosed
  infer_instance

instance (chained : Bool) : Forward (readOperand chained) :=
  inferInstanceAs (Forward (lexeme _))

instance : Forward readWord := by
  unfold readWord
  infer_instance

instance : Forward readExpression where
  ahead c a c' h := by
    unfold readExpression at h
    split at h <;> cases h
    exact .advance c _

instance (index : Nat) : Forward (canStartAt index) := by
  unfold canStartAt
  infer_instance

instance (index : Nat) : Forward (wordBefore index) := by
  unfold wordBefore
  infer_instance

instance (index : Nat) : Forward (pushParenAt index) := by
  have hpush : ∀ keyword, Forward (modify fun c : Cursor =>
      { c with parens := ⟨index, none, keyword⟩ :: c.parens } : Scan PUnit) := fun keyword =>
    ⟨by rintro c _ _ ⟨⟩; exact ⟨(Moved.refl c).congr rfl rfl rfl, rfl⟩⟩
  unfold pushParenAt
  infer_instance

instance : Forward pushParen := by
  unfold pushParen
  infer_instance

instance : Forward popParen where
  ahead c a c' h := by
    unfold popParen at h
    split at h <;> cases h
    · exact .refl c
    · exact ⟨(Moved.refl c).congr rfl rfl rfl, rfl⟩

instance (code : Bool) : Forward (regionEntry code) := by
  unfold regionEntry
  infer_instance

end Scan
end Patchwork
