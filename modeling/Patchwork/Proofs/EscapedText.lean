import Patchwork.Proofs.TextDocuments

/-!
# Text that is escaped

Any text can be written in a text document, if a backslash is put before every marker in it
(`escape`). The backslash is read as text first. At the marker it stands at the end of the chain, and
there it is taken back, so one backslash more or less before it does not matter
(`pushText_unescape`). What remains is a chain with one entry, the text itself
(`escaped_text_code`).
-/

namespace Patchwork.TextDocument

open Compile List Text Bool Document

def isMarkerChar (c : Char) : Bool :=
  ['$', '#', '%', '@'].contains c

/-- A text with a backslash before every marker. -/
def escape : Text → Text
  | [] => []
  | c :: t =>
    if isMarkerChar c && t.head? == some '{' then '\\' :: c :: escape t else c :: escape t

/-! ## What an escaped text begins with -/

theorem escape_eq_cons {t u : Text} {d : Char} (h : escape t = d :: u) (hd : d ≠ '\\') :
    ∃ t', t = d :: t' ∧ escape t' = u := by
  cases t with
  | nil => cases h
  | cons c t =>
    rw [escape] at h
    split at h
    · cases h
      exact absurd rfl hd
    · cases h
      exact ⟨t, rfl, rfl⟩

/-- A `<` that begins nothing does not begin anything either when the text after it is escaped. -/
theorem ofText_escape {t : Text} (h : TagStart.ofText t = .none) :
    TagStart.ofText (escape t) = .none := by
  have hslash : ∀ {p : Char → Bool} {c : Char}, p '\\' = false → p c = true → c ≠ '\\' := by
    rintro p _ hp hc rfl
    cases hp.symm.trans hc
  generalize hescape : escape t = u
  unfold TagStart.ofText
  -- what the escaped text begins with, the text begins with too
  split
  next hcomment =>
    obtain ⟨v, rfl⟩ := List.isPrefixOf_iff_prefix.mp hcomment
    have hfront : escape t = '!' :: '-' :: '-' :: v := hescape
    obtain ⟨t1, rfl, h1⟩ := escape_eq_cons hfront (by decide)
    obtain ⟨t2, rfl, h2⟩ := escape_eq_cons h1 (by decide)
    obtain ⟨t3, rfl, -⟩ := escape_eq_cons h2 (by decide)
    cases h
  · split
    next v =>
      refine if_neg fun hclosing => ?_
      obtain ⟨c, hc, hcloses⟩ := (Option.any_eq_true _ _).mp hclosing
      obtain ⟨w, rfl⟩ := head?_eq_some_iff.mp hc
      obtain ⟨t1, rfl, h1⟩ := escape_eq_cons hescape (by decide)
      obtain ⟨t2, rfl, -⟩ := escape_eq_cons h1 (hslash (by decide) hcloses)
      cases (if_pos hcloses).symm.trans h
    · refine if_neg fun hname => ?_
      obtain ⟨c, hc, hstarts⟩ := (Option.any_eq_true _ _).mp hname
      obtain ⟨w, rfl⟩ := head?_eq_some_iff.mp hc
      obtain ⟨t, rfl, -⟩ := escape_eq_cons hescape (hslash (by decide) hstarts)
      cases (ofText_eq_element.mpr ⟨c, t, rfl, hstarts⟩).symm.trans h

/-! ## Reading an escaped text -/

/-- A backslash that has just been read is taken back. -/
theorem pushText_unescape (buffer : Buffer) (c : Char) :
    (buffer.pushText ['\\']).unescape.pushText [c] = buffer.pushText [c] := by
  cases buffer with
  | nil => rfl
  | cons p ps =>
    cases p with
    | text last =>
      have hends : endsWithChar '\\' (last ++ ['\\']) = true := by
        simp [endsWithChar]
      show Buffer.pushText (Buffer.unescape (.text (last ++ ['\\']) :: ps)) [c] = _
      rw [Buffer.unescape, if_pos hends, dropLast_concat]
    | expr | comment => rfl

variable {rest code : Text} {settings : Settings} {position : Nat} {s : Session}

theorem leads_escaped (chain : Chain) {c : Char} (hc : isMarkerChar c = true)
    (hbrace : rest.head? = some '{') (h : Reads settings position ('\\' :: c :: rest) code s) :
    ∃ s' position', Leads [root settings chain] s [root settings (chain.pushText [c])] s' ∧
      Reads settings position' rest code s' := by
  obtain ⟨s1, hleads1, h1⟩ := leads_char chain h rfl
  have h2 := h1.taken
  have hfound : Markup.breakpoints.contains c = true :=
    contains_iff_mem.mpr (mem_cons_of_mem _ (contains_iff_mem.mp hc))
  have hother : (c != '<') = true := by
    rw [bne_iff_ne]
    rintro rfl
    cases hc
  have hmarker : (chain.pushText ['\\']).textMarker c true (taken s1) =
      .ok (chain.pushText [c], taken s1) := by
    have hpeek : (taken s1).cursor.peek? = some '{' := by
      rw [Cursor.peek?, h2.rest, hbrace]
    have hends : (chain.current.pushText ['\\']).endsWith '\\' = true :=
      Buffer.endsWith_pushText (cons_ne_nil _ _) _
    refine bind_of_ok rfl ?_
    rw [if_neg (by rw [hpeek]; decide), Chain.pushText, if_pos hends]
    show Except.ok ({ chain with
      current := (chain.current.pushText ['\\']).unescape.pushText [c] }, taken s1) = _
    rw [pushText_unescape]
    rfl
  have hnext := leads_textMarker h1 hfound hother hmarker
    (h1.length_lt (t := [c]) (cons_ne_nil _ _) h2)
  exact ⟨taken s1, _, hleads1.trans hnext, h2⟩

/-- Does no `<` of the text begin anything? -/
def isTagFree : Text → Bool
  | [] => true
  | c :: t => (c != '<' || TagStart.ofText t == .none) && isTagFree t

theorem leads_escape : ∀ {t : Text} {position : Nat} (chain : Chain) {s : Session},
    Reads settings position (escape t) code s → isTagFree t = true →
    ∃ s' position', Leads [root settings chain] s [root settings (chain.pushText t)] s' ∧
      Reads settings position' [] code s' := by
  intro t
  induction t with
  | nil =>
    intro position chain s h _
    exact ⟨s, position, .refl _ _, h⟩
  | cons c t ih =>
    intro position chain s h hfree
    obtain ⟨hhere, hfree⟩ := and_eq_true_iff.mp hfree
    -- one character of the text, with its backslash if it has one
    obtain ⟨s1, position1, hleads1, h1⟩ : ∃ s' position',
        Leads [root settings chain] s [root settings (chain.pushText [c])] s' ∧
          Reads settings position' (escape t) code s' := by
      rw [escape] at h
      split at h
      next hmarker =>
        obtain ⟨hc, hbrace⟩ := and_eq_true_iff.mp hmarker
        obtain ⟨u, rfl⟩ := head?_eq_some_iff.mp (eq_of_beq hbrace)
        exact leads_escaped chain hc rfl h
      next hmarker =>
        have hplain : (if c == '<' then TagStart.ofText (escape t) == .none
            else !(Markup.breakpoints.contains c && (escape t).head? == some '{')) = true := by
          split
          next hc =>
            rw [bne, hc] at hhere
            exact beq_iff_eq.mpr (ofText_escape (eq_of_beq hhere))
          next hc =>
            rw [not_eq_true', ← not_eq_true]
            intro hfound
            obtain ⟨hfound, hbrace⟩ := and_eq_true_iff.mp hfound
            refine hmarker (and_eq_true_iff.mpr ⟨?_, ?_⟩)
            · rcases mem_cons.mp (contains_iff_mem.mp hfound) with rfl | hmem
              · exact absurd rfl hc
              · exact contains_iff_mem.mpr hmem
            · obtain ⟨u, hu⟩ := head?_eq_some_iff.mp (eq_of_beq hbrace)
              obtain ⟨t, rfl, -⟩ := escape_eq_cons hu (by decide)
              rfl
        obtain ⟨s1, hleads1, h1⟩ := leads_char chain h hplain
        exact ⟨s1, _, hleads1, h1⟩
    obtain ⟨s2, position2, hleads2, h2⟩ := ih (chain.pushText [c]) h1 hfree
    refine ⟨s2, position2, hleads1.trans ?_, h2⟩
    rwa [← pushText_char] at hleads2

/-! ## Documents -/

def stringOf (dialect : Dialect) (t : Text) : Text :=
  match dialect with
  | .modern => '\x60' :: escapeTemplate t ++ "`"
  | .legacy => "\"\" + " ++ quote t

def textCall (o : Output) (t : Text) : Text :=
  o.feature "chain" ++ '(' :: o.context ++ ", [" ++ o.feature "text" ++ ", " ++
    stringOf o.dialect t ++ "]);"

theorem spell_text (o : Output) {t : Text} (h : allBlank t = false) :
    spell o { trimmed := true, decode := true, current := [.text t] } [] =
      textCall o (decodeEntities t) := by
  have hcounts : ∀ p ∈ [Piece.text t], p.counts = true := by
    rw [forall_mem_singleton]
    cases t with
    | nil => cases h
    | cons c t => rfl
  have hjoined : joined o.dialect decodeEntities [.text t] =
      stringOf o.dialect (decodeEntities t) := by
    cases o.dialect with
    | modern =>
      show '\x60' :: (escapeTemplate (decodeEntities t) ++ []) ++ "`".toList = _
      rw [append_nil]
      rfl
    | legacy =>
      show "\"\"".toList ++ (" + ".toList ++ (quote (decodeEntities t) ++ [])) = _
      rw [append_nil, ← append_assoc]
      rfl
  have hlink : Chain.currentLink? { trimmed := true, decode := true, current := [.text t] } o =
      some (.grouped .text (stringOf o.dialect (decodeEntities t))) := by
    unfold Chain.currentLink?
    dsimp only
    rw [h, joinedValue?_of_counts o (cons_ne_nil _ _) hcounts, hjoined]
    rfl
  rw [spell, Chain.addCurrent, hlink]
  show o.feature "chain" ++ '(' :: o.context ++ ((Link.grouped _ _).source o ++ []) ++ ");".toList ++
    [] = _
  rw [append_nil, append_nil]
  show _ ++ (", [".toList ++ o.feature "text" ++ ", ".toList ++ _ ++ "]".toList) ++ _ = _
  simp only [textCall, append_assoc]
  rfl

/-- Any text can be escaped: a document of nothing but an escaped text is one chain, and this has one
entry, the text with its character references replaced. -/
theorem escaped_text_code {settings : Settings} (file : Nat) {t : Text}
    (hmode : settings.rootMode = "html") (hattributes : settings.attributes = {})
    (hblank : allBlank t = false) (hfree : isTagFree t = true) :
    ∃ warnings, compile settings file (escape t) =
      .compiled (textCall (Output.empty settings) (decodeEntities t)) warnings := by
  have hchain : (Chain.pushText { trimmed := settings.attributes.trimmed, decode := true } t) =
      { trimmed := true, decode := true, current := [.text t] } := by
    cases t with
    | nil => cases hblank
    | cons c t =>
      rw [hattributes]
      rfl
  have houtput : rootOutput settings = Output.empty settings := by
    rw [rootOutput, hattributes]
    rfl
  refine compile_of_run file hmode (by rw [hattributes]) fun s fuel hs hfuel => ?_
  obtain ⟨s1, position1, hleads, h1⟩ := leads_escape _ hs hfree
  obtain ⟨fuel1, hfuel1, hrun1⟩ := hleads fuel hfuel
  obtain ⟨s2, hrun2, hcode⟩ := run_end _ h1 (Nat.zero_lt_of_lt hfuel1)
  refine ⟨s2, hrun1.trans hrun2, ?_⟩
  rw [hcode, hchain, spell_text _ hblank, houtput, nil_append]

/-- Backslashes before markers, markers one after the other, a lone `<` and a character reference that
holds a marker's character. -/
theorem escaped_text_code_backslashes :
    ∃ warnings, compile { rootMode := "html" } 0 (escape "\\\\$\x7b#\x7b a < b &#39;") =
      .compiled (textCall (Output.empty { rootMode := "html" })
        (decodeEntities "\\\\$\x7b#\x7b a < b &#39;")) warnings :=
  escaped_text_code 0 rfl rfl (by decide +kernel) (by decide +kernel)

end Patchwork.TextDocument
