import Mathlib.Data.List.Forall2
import Patchwork.Code
import Patchwork.Proofs.Steps

/-!
# Two compilations side by side

A document is compiled twice, for different dialects. The two sessions soon differ in the code they
have generated, but not in what they have read, in their warnings, or in the names and scopes of the
code (`Session.Alike`). `Parallel x y Q` says that this stays so: from sessions that are alike, `x`
and `y` halt alike, or both have results, which `Q` relates, in sessions that are alike again.

Most of what a computation looks at is then the same on both sides. The exception is the lookback of
code, where generated code stands before what is still being read, and where words and objects are
taken back from its end. But expanded code is only ever put between brackets there, and taking back
stops at a closing bracket. So it is enough that the two lookbacks are the same from a closing
bracket on (`Text.SameEnd`). Of an expanded fragment nothing is known but whether it reads a
reactive value.
-/

namespace Patchwork

open Compile List

/-! ## Sessions -/

/-- Two outputs whose generated code uses the same names and is in the same scopes. -/
structure Output.Alike (o o' : Output) : Prop where
  names : o'.names = o.names
  scopes : o'.scopes = o.scopes

namespace Output.Alike

variable {o o' : Output}

theorem context (h : o.Alike o') : o'.context = o.context := by
  unfold Output.context
  rw [h.scopes, h.names]

theorem feature (h : o.Alike o') (name : Text) : o'.feature name = o.feature name := by
  unfold Output.feature
  rw [h.names]

theorem of_fork {p p' : Output} (h : o.Alike o') (hp : p.fork = o.fork) (hp' : p'.fork = o'.fork) :
    p.Alike p' := by
  have hfork : o.fork.Alike o'.fork := ⟨h.names, h.scopes⟩
  rw [← hp, ← hp'] at hfork
  exact ⟨hfork.names, hfork.scopes⟩

end Output.Alike

/-- The code uses some names, and a function that binds a render context binds it by its name. -/
structure Output.Named (N : Names) (o : Output) : Prop where
  names : o.names = N
  scopes : ∀ context, CodeScope.function (some context) ∈ o.scopes → context = N.context

namespace Output.Named

variable {names : Names} {o : Output}

theorem context (h : o.Named names) : o.context = names.context := by
  unfold Output.context
  rw [h.names]
  cases hfind : o.scopes.findSome? _ with
  | none => rfl
  | some context =>
    obtain ⟨scope, hmem, hscope⟩ := exists_of_findSome?_eq_some hfind
    cases scope with
    | block => cases hscope
    | function bound =>
      obtain rfl : bound = some context := hscope
      exact h.scopes context hmem

theorem of_fork {p : Output} (h : o.Named names) (hp : p.fork = o.fork) : p.Named names := by
  have hfork : o.fork.Named names := ⟨h.names, h.scopes⟩
  rw [← hp] at hfork
  exact ⟨hfork.names, hfork.scopes⟩

end Output.Named

/-- Two sessions that compile the same for different dialects. -/
structure Session.Alike (s s' : Session) : Prop where
  cursor : s'.cursor = s.cursor
  warnings : s'.warnings = s.warnings
  settings : ∃ dialect, s'.settings = { s.settings with dialect }
  output : s.output.Alike s'.output

/-- Two ends of a computation: results that `Q` relates, in sessions that are alike and whose code
uses some names, or the same halt. -/
inductive Ends {α : Type} (names : Names) (Q : α → α → Prop) :
    Except Halt (α × Session) → Except Halt (α × Session) → Prop where
  | ok {a b : α} {s s' : Session} (hq : Q a b) (hs : s.Alike s') (hn : s.output.Named names) :
      Ends names Q (.ok (a, s)) (.ok (b, s'))
  | error (h : Halt) : Ends names Q (.error h) (.error h)

theorem Ends.bind {α β : Type} {names : Names} {P : α → α → Prop} {Q : β → β → Prop}
    {x y : Except Halt (α × Session)} {f g : α × Session → Except Halt (β × Session)}
    (hxy : Ends names P x y)
    (hfg : ∀ a b s s', P a b → s.Alike s' → s.output.Named names →
      Ends names Q (f (a, s)) (g (b, s'))) :
    Ends names Q (x >>= f) (y >>= g) := by
  cases hxy with
  | ok hq hs hn => exact hfg _ _ _ _ hq hs hn
  | error h => exact .error h

/-- From sessions that are alike, two computations end alike. The names of the code stay. -/
def Parallel {α : Type} (x y : Compile α) (Q : α → α → Prop) : Prop :=
  ∀ (names : Names) (s s' : Session), s.Alike s' → s.output.Named names → Ends names Q (x s) (y s')

namespace Parallel

variable {α β : Type} {x y : Compile α} {f g : α → Compile β} {P : α → α → Prop}
  {Q : β → β → Prop}

theorem bind (hx : Parallel x y P) (hf : ∀ a b, P a b → Parallel (f a) (g b) Q) :
    Parallel (x >>= f) (y >>= g) Q := by
  intro names s s' hs hn
  exact (hx names s s' hs hn).bind fun a b s1 s1' hab hs1 hn1 => hf a b hab names s1 s1' hs1 hn1

/-- The same result is known on both sides. -/
theorem same (hx : Parallel x y Eq) (hf : ∀ a, Parallel (f a) (g a) Q) :
    Parallel (x >>= f) (y >>= g) Q := by
  refine hx.bind ?_
  rintro a _ rfl
  exact hf a

theorem pure {a b : α} (h : P a b) : Parallel (Pure.pure a) (Pure.pure b) P :=
  fun _ _ _ hs hn => .ok h hs hn

theorem fail (cause : Cause) (start stop : Nat) :
    Parallel (Compile.fail cause start stop) (Compile.fail cause start stop) P :=
  fun _ _ _ _ _ => .error _

theorem throw (h : Halt) :
    Parallel (MonadExcept.throw h : Compile α) (MonadExcept.throw h) P :=
  fun _ _ _ _ _ => .error h

theorem scan (step : Scan α) : Parallel (Compile.scan step) (Compile.scan step) Eq := by
  intro names s s' hs hn
  unfold Compile.scan
  rw [hs.cursor]
  split
  · exact .ok rfl ⟨rfl, hs.warnings, hs.settings, hs.output⟩ hn
  · exact .error _

theorem get {f g : Session → Compile β} (hf : ∀ s s', s.Alike s' → Parallel (f s) (g s') Q) :
    Parallel (MonadState.get >>= f) (MonadState.get >>= g) Q :=
  fun names s s' hs hn => hf s s' hs names s s' hs hn

theorem cursor : Parallel Compile.cursor Compile.cursor Eq :=
  .get fun _ _ hs => .pure hs.cursor.symm

theorem position : Parallel Compile.position Compile.position Eq :=
  .get fun _ _ hs => .pure (congrArg Cursor.position hs.cursor.symm)

theorem output {f g : Output → Compile β} (hf : ∀ o o', o.Alike o' → Parallel (f o) (g o') Q) :
    Parallel (Compile.output >>= f) (Compile.output >>= g) Q :=
  .get fun s s' hs => hf s.output s'.output hs.output

theorem discard (hx : Parallel x y P) :
    Parallel (Functor.discard x) (Functor.discard y) Eq :=
  hx.bind fun _ _ _ => .pure rfl

theorem modifyOutput {step step' : Output → Output}
    (hstep : ∀ o o' : Output, o.Alike o' → (step o).Alike (step' o'))
    (hnamed : ∀ (names : Names) (o : Output), o.Named names → (step o).Named names) :
    Parallel (Compile.modifyOutput step) (Compile.modifyOutput step') Eq :=
  fun _ _ _ hs hn =>
    .ok rfl ⟨hs.cursor, hs.warnings, hs.settings, hstep _ _ hs.output⟩ (hnamed _ _ hn)

theorem onOutput {step step' : Output → Output × α} (hstep : ∀ o, Output.Alike o (step o).1)
    (hstep' : ∀ o, Output.Alike o (step' o).1) (hf : ∀ a b, Parallel (f a) (g b) Q) :
    Parallel (Compile.onOutput step >>= f) (Compile.onOutput step' >>= g) Q := by
  refine Parallel.bind (P := fun _ _ => True) (fun names s s' hs hn => ?_) fun a b _ => hf a b
  have h := hstep s.output
  have h' := hstep' s'.output
  refine .ok trivial ⟨hs.cursor, hs.warnings, hs.settings, ?_, ?_⟩ ⟨h.names.trans hn.names, ?_⟩
  · exact h'.names.trans (hs.output.names.trans h.names.symm)
  · exact h'.scopes.trans (hs.output.scopes.trans h.scopes.symm)
  · intro context hmem
    exact hn.scopes context (h.scopes ▸ hmem)

/-- The code that is written may be different. -/
theorem emit (t t' : Text) : Parallel (Compile.emit t) (Compile.emit t') Eq :=
  modifyOutput (fun o o' ho => ho.of_fork (o.fork_add t) (o'.fork_add t'))
    fun _ o ho => ho.of_fork (o.fork_add t)

theorem warn (cause : Cause) (span : Span) :
    Parallel (Compile.warn cause span) (Compile.warn cause span) Eq := by
  intro names s s' hs hn
  refine .ok rfl ⟨hs.cursor, ?_, hs.settings, hs.output⟩ hn
  exact congrArg (· ++ [⟨cause, span⟩]) hs.warnings

/-- The same result is known on both sides, whatever is alike in the sessions. -/
class Same (x y : Compile α) : Prop where
  parallel : Parallel x y Eq

instance (step : Scan α) : Same (Compile.scan step) (Compile.scan step) := ⟨scan step⟩

instance : Same Compile.cursor Compile.cursor := ⟨cursor⟩

instance : Same Compile.position Compile.position := ⟨position⟩

instance (t t' : Text) : Same (Compile.emit t) (Compile.emit t') := ⟨emit t t'⟩

instance (cause : Cause) (span : Span) : Same (Compile.warn cause span) (Compile.warn cause span) :=
  ⟨warn cause span⟩

instance (a : α) : Same (Pure.pure a) (Pure.pure a) := ⟨pure rfl⟩

instance [h : Same x y] : Same (Functor.discard x) (Functor.discard y) := ⟨h.parallel.discard⟩

theorem after [h : Same x y] (hf : ∀ a, Parallel (f a) (g a) Q) : Parallel (x >>= f) (y >>= g) Q :=
  h.parallel.same hf

end Parallel

/-- Results of two steps in a region: what the region then is, and what the step came to. -/
def StepsAlike {R : Type} (rel : R → R → Prop) (x x' : R × Step) : Prop :=
  rel x.1 x'.1 ∧ x.2 = x'.2

theorem Parallel.step {R : Type} {rel : R → R → Prop} {x y : Compile R} {step : Step}
    (hx : Parallel x y rel) :
    Parallel (do return (← x, step)) (do return (← y, step)) (StepsAlike rel) :=
  hx.bind fun _ _ h => .pure ⟨h, rfl⟩

/-! ## Computations that only write code -/

/-- Whatever the session, there is a result, and nothing but the code changes. -/
def Silent {α : Type} (x : Compile α) (P : α → Prop) : Prop :=
  ∀ s, ∃ a output, x s = .ok (a, { s with output }) ∧ output.fork = s.output.fork ∧ P a

namespace Silent

variable {α β : Type} {x y : Compile α} {f : α → Compile β} {P : α → Prop} {Q : β → Prop}

/-- Two of them end alike, without having anything in common. -/
theorem parallel {Q : α → Prop} {R : α → α → Prop} (hx : Silent x P) (hy : Silent y Q)
    (hR : ∀ a b, P a → Q b → R a b) : Parallel x y R := by
  intro names s s' hs hn
  obtain ⟨a, o, ha, ho, hP⟩ := hx s
  obtain ⟨b, o', hb, ho', hQ⟩ := hy s'
  rw [ha, hb]
  refine .ok (hR a b hP hQ) ⟨hs.cursor, hs.warnings, hs.settings, ?_⟩ (hn.of_fork ho)
  exact hs.output.of_fork ho ho'

theorem bind (hx : Silent x P) (hf : ∀ a, P a → Silent (f a) Q) : Silent (x >>= f) Q := by
  intro s
  obtain ⟨a, o, ha, ho, hP⟩ := hx s
  obtain ⟨b, o', hb, ho', hQ⟩ := hf a hP { s with output := o }
  refine ⟨b, o', ?_, ho'.trans ho, hQ⟩
  show (x s >>= fun r => f r.1 r.2) = _
  rw [ha]
  exact hb

theorem pure {a : α} (h : P a) : Silent (Pure.pure a) P := fun s => ⟨a, s.output, rfl, rfl, h⟩

theorem output : Silent Compile.output fun _ => True :=
  fun s => ⟨s.output, s.output, rfl, rfl, trivial⟩

theorem modifyOutput {step : Output → Output} (hstep : ∀ o, (step o).fork = o.fork) :
    Silent (Compile.modifyOutput step) fun _ => True :=
  fun s => ⟨(), step s.output, rfl, hstep s.output, trivial⟩

theorem emit (t : Text) : Silent (Compile.emit t) fun _ => True :=
  modifyOutput fun o => o.fork_add t

end Silent

/-! ## The end of the lookback -/

namespace Text

def isClosing (c : Char) : Bool :=
  c == ')' || c == ']' || c == '}'

variable {c : Char}

theorem not_isWordChar_of_isClosing (h : isClosing c = true) : isWordChar c = false := by
  simp only [isClosing, Bool.or_eq_true, beq_iff_eq] at h
  rcases h with (rfl | rfl) | rfl <;> decide

theorem not_isBlank_of_isClosing (h : isClosing c = true) : isBlank c = false := by
  simp only [isClosing, Bool.or_eq_true, beq_iff_eq] at h
  rcases h with (rfl | rfl) | rfl <;> decide

theorem not_isObjectChar_of_isClosing (h : isClosing c = true) :
    (isWordChar c || c == '.') = false := by
  rw [not_isWordChar_of_isClosing h, Bool.false_or, beq_eq_false_iff_ne]
  rintro rfl
  cases h

/-- Two texts that are the same, or at least from a closing bracket on. -/
inductive SameEnd : Text → Text → Prop where
  | refl (t : Text) : SameEnd t t
  | closed (front front' : Text) {c : Char} (hc : isClosing c = true) (back : Text) :
      SameEnd (front ++ c :: back) (front' ++ c :: back)

namespace SameEnd

theorem append {t t' : Text} (h : SameEnd t t') (u : Text) : SameEnd (t ++ u) (t' ++ u) := by
  cases h with
  | refl => exact .refl _
  | closed front front' hc back =>
    simp only [append_assoc]
    exact .closed front front' hc (back ++ u)

theorem append_append {t t' u u' : Text} (h : SameEnd t t') (hu : SameEnd u u') :
    SameEnd (t ++ u) (t' ++ u') := by
  cases hu with
  | refl u => exact h.append u
  | closed front front' hc back =>
    rw [← append_assoc, ← append_assoc]
    exact .closed (t ++ front) (t' ++ front') hc back

theorem concat (t t' : Text) {c : Char} (hc : isClosing c = true) :
    SameEnd (t ++ [c]) (t' ++ [c]) :=
  .closed t t' hc []

end SameEnd

theorem takeWhile_reverse_append_cons {p : Char → Bool} (hc : p c = false) (front back : Text) :
    (front ++ c :: back).reverse.takeWhile p = back.reverse.takeWhile p := by
  rw [reverse_append, reverse_cons, append_assoc, takeWhile_append]
  split
  next hall =>
    rw [singleton_append, takeWhile_cons_of_neg (by simp [hc]), append_nil]
    exact ((List.takeWhile_prefix p).eq_of_length hall).symm
  · rfl

theorem dropWhile_reverse_append_cons {p : Char → Bool} (hc : p c = false) (front back : Text) :
    ((front ++ c :: back).reverse.dropWhile p).reverse =
      front ++ c :: (back.reverse.dropWhile p).reverse := by
  rw [reverse_append, reverse_cons, append_assoc, dropWhile_append]
  split
  next hall =>
    have hnil : back.reverse.dropWhile p = [] := List.isEmpty_iff.mp hall
    rw [singleton_append, dropWhile_cons_of_neg (by simp [hc]), hnil]
    simp
  · simp

variable {t t' : Text} {c : Char}

theorem SameEnd.endsWithChar_eq (h : SameEnd t t') (d : Char) :
    endsWithChar d t' = endsWithChar d t := by
  cases h with
  | refl => rfl
  | closed front front' hc back => simp [endsWithChar]

theorem SameEnd.endsWith_eq (h : SameEnd t t') {u : Text} (hu : ∀ c ∈ u, isClosing c = false) :
    endsWith u t' = endsWith u t := by
  cases h with
  | refl => rfl
  | @closed front front' c hc back =>
    have hmem : c ∉ u := fun hmem => by
      rw [hu c hmem] at hc
      cases hc
    have hiff : ∀ front : Text, u <:+ front ++ c :: back ↔ u <:+ back := by
      intro front
      refine ⟨fun hsuffix => ?_, fun hsuffix => ?_⟩
      · have hback : c :: back <:+ front ++ c :: back := suffix_append _ _
        rcases Nat.lt_or_ge back.length u.length with hlt | hle
        · have hinside := suffix_of_suffix_length_le hback hsuffix hlt
          exact absurd (hinside.subset mem_cons_self) hmem
        · exact suffix_of_suffix_length_le hsuffix ((suffix_cons c back).trans hback) hle
      · exact hsuffix.trans ((suffix_cons c back).trans (suffix_append _ _))
    rw [Bool.eq_iff_iff, endsWith, endsWith, isSuffixOf_iff_suffix,
      isSuffixOf_iff_suffix, hiff, hiff]

end Text

namespace Code

open Text

variable {t t' : Text}

theorem lastObject_eq (h : SameEnd t t') : lastObject t' = lastObject t := by
  cases h with
  | refl => rfl
  | @closed front front' c hc back =>
    have hc' := not_isObjectChar_of_isClosing hc
    unfold lastObject
    rw [takeWhile_reverse_append_cons hc', takeWhile_reverse_append_cons hc']

theorem dropLastObject_sameEnd (h : SameEnd t t') :
    SameEnd (dropLastObject t) (dropLastObject t') := by
  cases h with
  | refl => exact .refl _
  | @closed front front' c hc back =>
    have hc' := not_isObjectChar_of_isClosing hc
    unfold dropLastObject
    rw [dropWhile_reverse_append_cons hc', dropWhile_reverse_append_cons hc']
    exact .closed front front' hc _

theorem length_dropLastWord_lt {t word : Text} (hword : lastWord (trimEnd t) = word)
    (hne : word ≠ []) : (dropLastWord (trimEnd t)).length < t.length := by
  have hsum := congrArg length
    (takeWhile_append_dropWhile (p := isWordChar) (l := (trimEnd t).reverse))
  have htrim : (trimEnd t).length ≤ t.length := by
    have hle := (dropWhile_suffix isBlank (l := t.reverse)).length_le
    rw [trimEnd]
    simpa using hle
  have hpos : 0 < (lastWord (trimEnd t)).length := by
    rw [hword]
    exact length_pos_iff.mpr hne
  rw [lastWord, length_reverse] at hpos
  rw [dropLastWord, length_reverse]
  rw [length_append, length_reverse] at hsum
  omega

/-- Modifiers are taken from behind the last closing bracket, with any fuel that is enough for what
stands there. -/
theorem takeModifiers_append_cons {c : Char} (hc : isClosing c = true) (front front' : Text)
    {fuel fuel' : Nat} (m : Modifiers) (back : Text) (hfuel : back.length < fuel)
    (hfuel' : back.length < fuel') :
    ∃ rest m', takeModifiers m fuel (front ++ c :: back) = (front ++ c :: rest, m') ∧
      takeModifiers m fuel' (front' ++ c :: back) = (front' ++ c :: rest, m') := by
  induction fuel generalizing fuel' m back with
  | zero => omega
  | succ fuel ih =>
    obtain ⟨fuel', rfl⟩ : ∃ n, fuel' = n + 1 := ⟨fuel' - 1, by omega⟩
    have htrim : ∀ front : Text, trimEnd (front ++ c :: back) = front ++ c :: trimEnd back :=
      fun front => dropWhile_reverse_append_cons (not_isBlank_of_isClosing hc) front back
    have hword : ∀ front : Text, lastWord (front ++ c :: trimEnd back) = lastWord (trimEnd back) :=
      fun front => congrArg reverse
        (takeWhile_reverse_append_cons (not_isWordChar_of_isClosing hc) front _)
    have hdrop : ∀ front : Text,
        dropLastWord (front ++ c :: trimEnd back) = front ++ c :: dropLastWord (trimEnd back) :=
      fun front => dropWhile_reverse_append_cons (not_isWordChar_of_isClosing hc) front _
    unfold takeModifiers
    simp only [htrim, hword, hdrop]
    split
    next heq =>
      have hlt := length_dropLastWord_lt (eq_of_beq heq) (by decide)
      exact ih _ _ (by omega) (by omega)
    split
    next heq =>
      have hlt := length_dropLastWord_lt (eq_of_beq heq) (by decide)
      exact ih _ _ (by omega) (by omega)
    · exact ⟨back, m, rfl, rfl⟩

theorem takeModifiers_sameEnd (h : SameEnd t t') (m : Modifiers) :
    ∃ rest rest' m', takeModifiers m t.length t = (rest, m') ∧
      takeModifiers m t'.length t' = (rest', m') ∧ SameEnd rest rest' := by
  cases h with
  | refl => exact ⟨_, _, _, rfl, rfl, .refl _⟩
  | @closed front front' c hc back =>
    have hfuel : ∀ front : Text, back.length < (front ++ c :: back).length := by
      intro front
      rw [length_append, length_cons]
      omega
    obtain ⟨rest, m', heq, heq'⟩ :=
      takeModifiers_append_cons hc front front' m back (hfuel front) (hfuel front')
    exact ⟨_, _, m', heq, heq', .closed front front' hc rest⟩

end Code

/-! ## Code -/

/-- Of two expanded fragments it is known that both read a reactive value or neither does. -/
def Expr.Alike (e e' : Expr) : Prop :=
  e'.reactive = e.reactive

def Expander.Alike (inner : Expander) : Prop :=
  ∀ text base tracked,
    Parallel (inner text base tracked) (inner text base tracked) Expr.Alike

namespace Code

open Text

/-- Two regions of code that differ in the lookback, before a closing bracket. -/
def Alike (code code' : Code) : Prop :=
  ∃ lookback, code' = { code with lookback } ∧ SameEnd code.lookback lookback

variable {code code' : Code} {inner : Purpose → Expander}

theorem Alike.push (h : code.Alike code') (t : Text) : (code.push t).Alike (code'.push t) := by
  obtain ⟨lookback, rfl, hend⟩ := h
  exact ⟨_, rfl, hend.append t⟩

theorem Alike.pushClosed (h : code.Alike code') (t t' : Text) {c : Char} (hc : isClosing c = true) :
    (code.push (t ++ [c])).Alike (code'.push (t' ++ [c])) := by
  obtain ⟨lookback, rfl, -⟩ := h
  refine ⟨_, rfl, ?_⟩
  show SameEnd (code.lookback ++ (t ++ [c])) (lookback ++ (t' ++ [c]))
  rw [← append_assoc, ← append_assoc]
  exact .concat _ _ hc

theorem commit_parallel (h : code.Alike code') : Parallel code.commit code'.commit Alike := by
  obtain ⟨lookback, rfl, -⟩ := h
  exact .after fun _ => .pure ⟨[], rfl, .refl _⟩

theorem callShorthand_parallel (h : code.Alike code') :
    Parallel code.callShorthand code'.callShorthand Alike := by
  refine .after fun dollar => ?_
  split
  · exact .pure (h.push _)
  refine .output fun o o' ho => .after fun c => ?_
  dsimp only
  split
  · refine .after fun _ => .pure ?_
    rw [ho.context]
    exact h.push _
  split
  next name _ =>
    refine .after fun _ => .after fun p => ?_
    refine .after fun _ => .after fun c => .pure ?_
    rw [ho.context, ho.feature]
    exact h.push _
  · exact .pure (h.push _)

instance (opened : Char) (what : Text) :
    Parallel.Same (readGroup opened what) (readGroup opened what) := by
  refine ⟨.after fun c => ?_⟩
  split
  · exact .scan _
  · exact .fail _ _ _

section

variable (hinner : ∀ purpose, Expander.Alike (inner purpose))
include hinner

theorem computedFunction_parallel (tracker tracker' : Text) :
    Parallel (computedFunction inner tracker) (computedFunction inner tracker')
      fun _ _ => True := by
  refine .after fun _ => .after fun space => ?_
  refine .after fun name => ?_
  extract_lets rest rest'
  have hrest : ∀ nameSpace, Parallel (rest nameSpace) (rest' nameSpace) fun _ _ => True := by
    intro nameSpace
    refine .after fun params => .after fun bodySpace => ?_
    refine .after fun start => .after fun body => ?_
    exact (hinner _ _ _ _).bind fun _ _ _ => .pure trivial
  split
  · exact .after hrest
  · exact .after hrest

theorem computedBody_parallel :
    Parallel (computedBody inner) (computedBody inner) fun _ _ => True := by
  refine .after fun start => .after fun c => ?_
  split
  · refine .after fun block => ?_
    exact (hinner _ _ _ _).bind fun _ _ _ => .pure trivial
  refine .after fun text => ?_
  exact (hinner _ _ _ _).bind fun _ _ _ => .pure trivial

theorem computedGroup_parallel (tracker tracker' : Text) :
    Parallel (computedGroup inner tracker) (computedGroup inner tracker') fun _ _ => True := by
  refine .after fun start => .after fun group => ?_
  refine .after fun c => ?_
  split
  · refine .after fun before => .after fun _ => ?_
    refine .after fun after => ?_
    exact (computedBody_parallel hinner).bind fun _ _ _ => .pure trivial
  refine (hinner _ _ _ _).bind fun _ _ _ => ?_
  exact .output fun _ _ _ => .pure trivial

theorem computed_parallel (h : code.Alike code') :
    Parallel (code.computed inner) (code'.computed inner) Alike := by
  refine .after fun c => ?_
  dsimp only
  split
  · exact .after fun doubled => .pure (h.push _)
  refine .after fun space => .after fun c => ?_
  split
  · exact .pure (h.push _)
  -- the modifiers are taken off both lookbacks, and what is computed is put between brackets
  obtain ⟨lookback, rfl, hend⟩ := h
  obtain ⟨rest, rest', m, hrest, hrest', hend'⟩ := takeModifiers_sameEnd hend {}
  have htaken : Alike { code with lookback := rest } { code with lookback := rest' } :=
    ⟨rest', rfl, hend'⟩
  simp only [hrest, hrest']
  refine .output fun o o' ho => ?_
  split
  · refine (computedFunction_parallel hinner _ _).bind fun _ _ _ => .pure ?_
    exact htaken.pushClosed _ _ rfl
  split
  · refine (computedGroup_parallel hinner _ _).bind fun _ _ _ => .pure ?_
    exact htaken.pushClosed _ _ rfl
  refine .after fun start => .after fun name => ?_
  refine (hinner _ _ _ _).bind fun _ _ _ => .pure ?_
  exact htaken.pushClosed _ _ rfl

/-- What is read by a marker: the code goes on alike, and what is read ends alike. -/
structure ReadAlike (read read' : Code × Option Text) : Prop where
  code : read.1.Alike read'.1
  subject : Option.Rel SameEnd read.2 read'.2

theorem readMember_parallel (h : code.Alike code') :
    Parallel (code.readMember inner) (code'.readMember inner) ReadAlike := by
  obtain ⟨lookback, rfl, hend⟩ := h
  unfold readMember
  simp only [lastObject_eq hend]
  refine .after fun c => ?_
  have htaken := dropLastObject_sameEnd hend
  split
  · refine .after fun start => .after fun subscript => ?_
    refine (hinner _ _ _ _).bind fun key key' hkey => .pure ⟨?_, .some (.concat _ _ rfl)⟩
    rw [show key'.reactive = key.reactive from hkey]
    exact ⟨_, rfl, htaken⟩
  refine .after fun word => ?_
  split
  · exact .pure ⟨⟨_, rfl, htaken⟩, .some (.refl _)⟩
  · exact .pure ⟨⟨_, rfl, hend⟩, .none⟩

theorem readSubject_parallel (h : code.Alike code') :
    Parallel (code.readSubject inner) (code'.readSubject inner) ReadAlike := by
  obtain ⟨lookback, rfl, hend⟩ := h
  refine .after fun c => ?_
  split
  · refine .after fun start => .after fun group => ?_
    refine (hinner _ _ _ _).bind fun e e' he => .pure ⟨?_, .some (.concat _ _ rfl)⟩
    rw [show e'.reactive = e.reactive from he]
    exact ⟨_, rfl, hend⟩
  refine .after fun word => .pure ⟨⟨_, rfl, hend⟩, ?_⟩
  cases word with
  | none => exact .none
  | some word => exact .some (.refl _)

theorem trackedRead_parallel (safe : Bool) (name name' : Text) :
    Parallel (trackedRead inner safe name) (trackedRead inner safe name') fun t t' =>
      ∃ u u', t = u ++ [')'] ∧ t' = u' ++ [')'] := by
  refine .output fun o o' ho => .after fun c => ?_
  rw [ho.names]
  split
  · refine .after fun chain => (hinner _ _ _ _).bind fun nested nested' _ => ?_
    exact .output fun _ _ _ => .pure ⟨_, _, rfl, rfl⟩
  · exact .pure ⟨_, _, rfl, rfl⟩

theorem reactiveRead_parallel (marker : Marker) (h : code.Alike code') :
    Parallel (code.reactiveRead inner marker) (code'.reactiveRead inner marker) Alike := by
  have hend : SameEnd code.lookback code'.lookback := by
    obtain ⟨lookback, rfl, hend⟩ := h
    exact hend
  have hdots : ∀ c ∈ ("..." : Text), isClosing c = false := by
    have hall : ("..." : Text).all (isClosing · == false) = true := by decide
    exact fun c hc => eq_of_beq (all_eq_true.mp hall c hc)
  unfold reactiveRead
  rw [hend.endsWithChar_eq, hend.endsWith_eq hdots]
  refine .after fun c => ?_
  extract_lets spread member first operand
  split
  · split
    · exact .after fun _ => .pure (h.push _)
    · exact .after fun _ => .pure (h.push _)
  refine .after fun safe => ?_
  extract_lets rest
  have hrest : ∀ read read', ReadAlike read read' → Parallel (rest read) (rest read') Alike := by
    rintro ⟨code, subject⟩ ⟨code', subject'⟩ ⟨hcode, hsubject⟩
    cases hsubject with
    | none => exact .pure (hcode.push _)
    | @some name name' hname =>
      obtain ⟨lookback, rfl, hend⟩ := hcode
      have hcode : code.Alike { code with lookback } := ⟨_, rfl, hend⟩
      dsimp only [rest]
      split
      · refine (trackedRead_parallel hinner _ _ _).bind ?_
        rintro _ _ ⟨u, u', rfl, rfl⟩
        obtain ⟨lookback', hpush, hend'⟩ := hcode.pushClosed u u' (c := ')') rfl
        exact .pure ⟨lookback', by rw [hpush], hend'⟩
      split
      · exact .output fun _ _ _ => .pure (hcode.pushClosed _ _ rfl)
      · exact .pure ⟨_, rfl, hend.append_append (hname.append _)⟩
  split
  · exact (readMember_parallel hinner h).bind hrest
  · exact (readSubject_parallel hinner h).bind hrest

end

variable {o : Output}

theorem startFunction_alike {o' : Output} (h : o.Alike o') (params : Text) :
    (o.startFunction params).Alike (o'.startFunction params) := by
  refine ⟨h.names, ?_⟩
  unfold Output.startFunction
  rw [h.names, h.scopes]

theorem endScope_alike {o' : Output} (h : o.Alike o') : o.endScope.Alike o'.endScope :=
  ⟨h.names, congrArg (List.drop 1) h.scopes⟩

theorem startFunction_named {names : Names} (h : o.Named names) (params : Text) :
    (o.startFunction params).Named names := by
  refine ⟨h.names, fun context hmem => ?_⟩
  rcases mem_cons.mp hmem with hnew | hmem
  · have hcontext := CodeScope.function.inj hnew
    split at hcontext
    · rw [Option.some.inj hcontext, h.names]
    · cases hcontext
  · exact h.scopes context hmem

theorem endScope_named {names : Names} (h : o.Named names) : o.endScope.Named names :=
  ⟨h.names, fun context hmem => h.scopes context (mem_of_mem_drop hmem)⟩

theorem step_parallel (hinner : ∀ purpose, Expander.Alike (inner purpose)) (h : code.Alike code') :
    Parallel (code.step inner) (code'.step inner) (StepsAlike Alike) := by
  refine .after fun found => ?_
  extract_lets code1 code1'
  have h : code1.Alike code1' := h.push _
  split
  · exact .step (commit_parallel h)
  · exact .after fun _ => .pure ⟨h.push _, rfl⟩
  · exact .after fun _ => .pure ⟨h.push _, rfl⟩
  · refine .after fun params => (commit_parallel (h.push _)).bind ?_
    rintro code2 code2' ⟨lookback, rfl, hend⟩
    refine (Parallel.modifyOutput (fun o o' ho => ?_) fun names o hn => ?_).same fun _ => ?_
    · cases params with
      | some params => exact startFunction_alike ho params
      | none => exact ⟨ho.names, congrArg (CodeScope.block :: ·) ho.scopes⟩
    · cases params with
      | some params => exact startFunction_named hn params
      | none =>
        refine ⟨hn.names, fun context hmem => ?_⟩
        exact hn.scopes context ((mem_cons.mp hmem).resolve_left nofun)
    · exact .pure ⟨⟨lookback, rfl, hend⟩, rfl⟩
  · refine (commit_parallel (h.push _)).bind ?_
    rintro code2 code2' ⟨lookback, rfl, hend⟩
    split
    · refine (Parallel.modifyOutput (fun o o' ho => endScope_alike ho) fun names o hn =>
        endScope_named hn).same fun _ => ?_
      exact .pure ⟨⟨lookback, rfl, hend⟩, rfl⟩
    · exact .pure ⟨⟨lookback, rfl, hend⟩, rfl⟩
  · exact .step (callShorthand_parallel h)
  · exact .step (computed_parallel hinner h)
  · exact .step (reactiveRead_parallel hinner _ h)
  · exact .step (reactiveRead_parallel hinner _ h)
  · have hfragment : code1'.fragment = code1.fragment := by
      obtain ⟨lookback, heq, -⟩ := h
      rw [heq]
    rw [hfragment]
    split
    · exact .pure ⟨h.push _, rfl⟩
    refine .after fun entry => ?_
    split
    · exact .step (commit_parallel h)
    · exact .step (commit_parallel h)
    · exact .step (commit_parallel h)
    · exact .pure ⟨h.push _, rfl⟩

theorem run_parallel (hinner : ∀ purpose, Expander.Alike (inner purpose))
    (fuel : Nat) (h : code.Alike code') :
    Parallel (run inner fuel code) (run inner fuel code') Alike := by
  induction fuel generalizing code code' with
  | zero => exact .throw _
  | succ fuel ih =>
    refine (step_parallel hinner h).bind ?_
    rintro ⟨code1, step⟩ ⟨code1', step'⟩ ⟨h1, rfl⟩
    dsimp only
    split
    · exact .pure h1
    · exact ih h1

end Code

/-- A fragment is expanded in a session of its own, which begins alike on both sides. -/
theorem expandWith_alike {inner : Purpose → Expander}
    (hinner : ∀ purpose, Expander.Alike (inner purpose)) :
    Expander.Alike (expandWith inner) := by
  intro text base tracked names s s' hs hn
  have hfork : Session.Alike
      { cursor := .ofText text base, output := s.output.fork, settings := s.settings
        warnings := [] }
      { cursor := .ofText text base, output := s'.output.fork, settings := s'.settings
        warnings := [] } :=
    ⟨rfl, rfl, hs.settings, hs.output.names, hs.output.scopes⟩
  have hends := Code.run_parallel hinner (text.length + 1)
    (show Code.Alike { tracked, fragment := true } { tracked, fragment := true } from
      ⟨[], rfl, .refl _⟩) names _ _ hfork ⟨hn.names, hn.scopes⟩
  refine hends.bind ?_
  rintro code _ t t' ⟨lookback, rfl, -⟩ ht -
  refine .ok rfl ⟨hs.cursor, ?_, hs.settings, hs.output.names, hs.output.scopes⟩
    ⟨hn.names, hn.scopes⟩
  rw [hs.warnings, ht.warnings]

theorem expandAt_alike (depth : Nat) : Expander.Alike (expandAt depth) := by
  induction depth with
  | zero => exact fun _ _ _ => .throw _
  | succ depth ih => exact expandWith_alike fun _ => ih

theorem expand_alike : Expander.Alike expand := fun text base tracked =>
  expandAt_alike _ text base tracked

/-! ## Pieces -/

theorem isEmpty_eq_of_forall₂ {α : Type} {rel : α → α → Prop} {l l' : List α}
    (h : Forall₂ rel l l') : l'.isEmpty = l.isEmpty := by
  cases h <;> rfl

/-- Pieces that are the same but for the code of an expression. -/
inductive Piece.Alike : Piece → Piece → Prop where
  | text (t : Text) : Alike (.text t) (.text t)
  | expr {e e' : Expr} (he : e.Alike e') : Alike (.expr e) (.expr e')
  | comment (t : Text) : Alike (.comment t) (.comment t)

abbrev Buffer.Alike (b b' : Buffer) : Prop :=
  List.Forall₂ Piece.Alike b b'

namespace Buffer.Alike

variable {b b' : Buffer}

theorem pushText (h : Buffer.Alike b b') (t : Text) :
    Buffer.Alike (b.pushText t) (b'.pushText t) := by
  unfold Buffer.pushText
  split
  · exact h
  cases h with
  | nil => exact .cons (.text t) .nil
  | cons hp hps =>
    cases hp with
    | text last => exact .cons (.text _) hps
    | expr he => exact .cons (.text t) (.cons (.expr he) hps)
    | comment c => exact .cons (.text t) (.cons (.comment c) hps)

theorem endsWith (h : Buffer.Alike b b') (c : Char) : b'.endsWith c = b.endsWith c := by
  cases h with
  | nil => rfl
  | cons hp hps => cases hp <;> rfl

theorem trimEnd (h : Buffer.Alike b b') : Buffer.Alike b.trimEnd b'.trimEnd := by
  cases h with
  | nil => exact .nil
  | cons hp hps =>
    cases hp with
    | text last => exact .cons (.text _) hps
    | expr he => exact .cons (.expr he) hps
    | comment c => exact .cons (.comment c) hps

theorem unescape (h : Buffer.Alike b b') : Buffer.Alike b.unescape b'.unescape := by
  cases h with
  | nil => exact .nil
  | cons hp hps =>
    cases hp with
    | text last =>
      unfold Buffer.unescape
      dsimp only
      split
      · exact .cons (.text _) hps
      · exact .cons (.text _) hps
    | expr he => exact .cons (.expr he) hps
    | comment c => exact .cons (.comment c) hps

end Buffer.Alike

end Patchwork
