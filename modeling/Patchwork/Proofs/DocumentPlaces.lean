import Patchwork.Proofs.Openings
import Patchwork.Proofs.RegionPlaces

/-!
# Documents in their places

A document is one stretch of text, with its tags, regions and fragments in it. `Framed` says what the
frames have noted of it: the region that reads on and those that wait for it, each with the positions
that it may report. `advance_settles` is the step and `run_settles` the run of a document, which has
read its end before the fuel is spent, since each step but the last reads a character.

So every fragment is expanded where it stands (`fragments_located`), every diagnostic lies in the
document but for what `overhang` and `Cause.overrun` allow (`diagnostics_in_document`), and a document
of ASCII characters and letters has an answer (`document_answered`).
-/

namespace Patchwork

open Compile List Text Region Scan

/-- What is reported of a document. -/
def Outcome.diagnostics : Outcome → List Diagnostic
  | compiled _ warnings => warnings
  | rejected errors => errors
  | stopped => []

variable {b : Bounds} {r : Stretch b} {E E' : Expansion} {s : Session} (hexpands : Expands r E E')

/-! ## Tags -/

theorem Compile.scan_bind {α β : Type} (x : Scan α) (f : α → Scan β) :
    scan (x >>= f) = scan x >>= fun a => scan (f a) := by
  funext s
  rw [bind_apply]
  have hbind : (x >>= f) s.cursor = EStateM.bind x f s.cursor := rfl
  unfold scan
  rw [hbind, EStateM.bind]
  cases x s.cursor <;> rfl

theorem Stretch.Settles.readQuoted {q : Char} (hpeek : s.cursor.peek? = some q)
    (hq : q.utf8Size = 1) (hquote : Lexeme.isQuote q = true) :
    r.Rests (Compile.scan Scan.readQuoted) s fun _ _ => True := by
  unfold Scan.readQuoted
  rw [scan_bind]
  refine .bind .scan fun t s1 h1 hread => ?_
  obtain ⟨body, rfl⟩ := skipString_spec hquote hpeek hread
  refine (Stretch.Settles.scanWhole rfl ?_).mono fun _ _ _ _ => trivial
  rw [inner?_eq hq hq]
  nofun

namespace StartTag

theorem readValue_settles : r.Rests (scan readValue) s fun value s' =>
      ∀ t, value = .expression t → ∃ d, s.cursor.rest = '=' :: '{' :: (t ++ d :: s'.cursor.rest) := by
  have hpure : ∀ {value : RawValue} {s1 : Session} {Q : RawValue → Session → Prop}, Q value s1 →
      r.Rests (scan (pure value)) s1 Q := fun h => .of_eq rfl Stretch.Holds.goes h
  unfold readValue
  rw [scan_bind]
  refine .bind .scan fun equals s1 h1 hread => ?_
  split
  next hequals =>
    rw [scan_bind]
    refine .look rfl ?_
    have hquote : ∀ q : Char, q.utf8Size = 1 → Lexeme.isQuote q = true → s1.cursor.peek? = some q →
        r.Rests (scan (Scan.readQuoted >>= fun t => pure (RawValue.text t))) s1 fun value s' =>
            ∀ t, value = .expression t →
              ∃ d, s.cursor.rest = '=' :: '{' :: (t ++ d :: s'.cursor.rest) := by
      intro q hq hquote hpeek
      rw [scan_bind]
      exact .bind (.readQuoted hpeek hq hquote) fun _ _ _ _ => hpure nofun
    dsimp only
    split
    next hcase =>
      rcases Bool.or_eq_true_iff.mp hcase with hcase | hcase
      · exact hquote _ rfl rfl (eq_of_beq hcase)
      · exact hquote _ rfl rfl (eq_of_beq hcase)
    split
    next hcase =>
      rw [scan_bind]
      refine .bind (.readEnclosed (eq_of_beq hcase) rfl) ?_
      rintro t s2 - ⟨d, -, hrest⟩
      refine hpure ?_
      rintro _ ⟨⟩
      rcases readIf_eq hread with ⟨-, hequals⟩ | ⟨hfalse, -⟩
      · exact ⟨d, by rw [hequals, hrest]⟩
      · rw [hfalse] at hequals
        cases hequals
    · rw [scan_bind]
      exact .bind .scan fun _ _ _ _ => hpure nofun
  · exact hpure nofun

/-- What has been noted of a tag lies within the bounds. -/
structure Fit (limit : Nat) (tag : StartTag) : Prop where
  span : tag.span.Upto limit
  region : ∀ raw ∈ tag.region, raw.span.Upto limit

/-- An expression stands two characters after the name of its attribute. -/
theorem valueSource_settles {name : Text} {start : Nat} {value : RawValue}
    (hvalue : ∀ t, value = .expression t → r.Has (start + bytes name + 2) t) :
    hexpands.Settles (@valueSource · name start value) s s.Stood := by
  cases value with
  | flag | text => exact .pure rfl
  | expression t =>
    refine .bind (hexpands.direct rfl (hvalue t rfl)) fun e s1 _ h1 => ?_
    split
    · exact .output (.pure h1)
    · exact .pure h1

theorem readAttribute_settles {tag : StartTag} (htag : tag.Fit b.limit) (hrest : s.cursor.rest ≠ []) :
    hexpands.Settles (@readAttribute · tag) s fun tag' s' =>
      tag'.Fit b.limit ∧ s'.cursor.rest.length < s.cursor.rest.length := by
  refine .position (.holding fun hs => .bind .scan fun isRegion s1 h1 hmark => ?_)
  refine .bind .scan fun name s2 h2 hname => ?_
  have hrest2 := readWhile_eq hname
  by_cases hempty : name.isEmpty = true
  · -- the character that is not expected lies within the document, or else the `#` before the end does
    rw [if_pos hempty, if_pos hempty]
    have hsize : (s2.cursor.peek?.getD ' ').utf8Size ≤ bytes s.cursor.rest := by
      rw [List.isEmpty_iff.mp hempty, nil_append] at hrest2
      have hhead : ∀ t : Text, t ≠ [] → (t.head?.getD ' ').utf8Size ≤ bytes t := by
        intro t ht
        cases t with
        | nil => exact absurd rfl ht
        | cons d t => exact Nat.le_add_right ..
      rw [Cursor.peek?, ← hrest2]
      rcases readIf_eq hmark with ⟨-, hsharp⟩ | ⟨-, hsame⟩
      · rw [hsharp, bytes]
        have hone : Char.utf8Size '#' = 1 := rfl
        by_cases hnil : s1.cursor.rest = []
        · rw [hnil]
          show 1 ≤ _
          omega
        · have hle := hhead _ hnil
          omega
      · rw [hsame]
        exact hhead _ hrest
    refine .cursor (.bind (.fail (Q := fun _ _ => False) (Fault.upto_of_le (Nat.le_add_right ..) ?_))
      fun _ _ _ h => h.elim)
    have hle := hs.cursor.position_add_le
    omega
  · rw [if_neg hempty, if_neg hempty]
    have hlt : s2.cursor.rest.length < s.cursor.rest.length := by
      have hpositive : 0 < name.length := length_pos_iff.mpr fun hnil => hempty (by rw [hnil]; rfl)
      have hle := h1.moved.length_le
      rw [hrest2, length_append] at hle
      omega
    refine .bind readValue_settles fun value s3 h3 hvalue => ?_
    have hlt3 := Nat.lt_of_le_of_lt h3.moved.length_le hlt
    refine .position ?_
    split
    · refine .pure ⟨⟨htag.span, ?_⟩, hlt3⟩
      rw [forall_mem_append, forall_mem_singleton]
      exact ⟨htag.region, ((h1.trans h2).trans h3).moved.position_le, h3.holds.cursor.position_le⟩
    next hregion =>
      refine .bind (valueSource_settles hexpands fun t ht => ?_) fun source s4 _ h4 => ?_
      · obtain ⟨d, hexpression⟩ := hvalue t ht
        have hsame : s1.cursor = s.cursor := by
          rcases readIf_eq hmark with ⟨htrue, -⟩ | ⟨-, hsame⟩
          · exact absurd htrue hregion
          · exact hsame
        have hposition : s2.cursor.position = s.cursor.position + bytes name := by
          rw [h2.moved.position_eq hrest2, hsame]
        refine ⟨s2.cursor.past.reverse ++ ['=', '{'], d :: s3.cursor.rest, ?_, ?_⟩
        · rw [h2.holds.cursor.text_eq, hexpression, append_assoc]
          rfl
        · rw [← hposition, h2.holds.cursor.position_eq, bytes_append]
          rfl
      · exact .pure ⟨⟨htag.span, htag.region⟩, h4 ▸ hlt3⟩

theorem readAttributes_settles (tag : StartTag) (htag : tag.Fit b.limit) {fuel : Nat}
    (hfuel : s.cursor.rest.length < fuel) :
    hexpands.Settles (@readAttributes · tag fuel) s fun tag' _ => tag'.Fit b.limit := by
  induction fuel generalizing s tag with
  | zero => exact absurd hfuel (Nat.not_lt_zero _)
  | succ fuel ih =>
    refine .bind .skip fun _ s1 h1 _ => .bind .scan fun closing s2 h2 _ => ?_
    split
    · exact .pure ⟨htag.span, htag.region⟩
    refine .bind .scan fun closed s3 h3 _ => ?_
    split
    · exact .pure htag
    refine .cursor ?_
    split
    · exact .fail (htag.span.fault _)
    next hend =>
      have hrest : s3.cursor.rest ≠ [] := fun hnil => hend (by rw [Cursor.atEnd, hnil]; rfl)
      refine .bind (readAttribute_settles hexpands htag hrest) ?_
      rintro tag' s4 - ⟨htag', hlt⟩
      have hle := ((h1.trans h2).trans h3).moved.length_le
      exact ih tag' htag' (by omega)

theorem read_settles {at_ : Nat} (hat : at_ ≤ s.cursor.position) :
    hexpands.Settles (@StartTag.read · at_) s fun tag _ => tag.Fit b.limit := by
  refine .bind .scan fun name s1 h1 _ => .position (.cursor ?_)
  have hspan : Span.Upto b.limit ⟨at_, s1.cursor.position⟩ :=
    ⟨Nat.le_trans hat h1.moved.position_le, h1.holds.cursor.position_le⟩
  exact readAttributes_settles hexpands { name, span := ⟨at_, s1.cursor.position⟩ } ⟨hspan, nofun⟩
    (Nat.lt_succ_self _)

end StartTag

instance : readClosingTag.Tidy := by
  unfold readClosingTag
  infer_instance

/-! ## Region attributes -/

theorem Attributes.set_explicit {a a' : Attributes} {key : AttributeKey} {value : RawValue}
    (h : a.set key value = .ok a') : a'.explicit = a.explicit := by
  unfold set at h
  cases key with
  | _ =>
    dsimp only at h
    split at h <;> cases h
    rfl

/-- What is wrong with an attribute is reported where it stands, and so is an attribute that nothing
uses. -/
theorem Attributes.resolve_spans {raw : List RawAttribute} (parent : Attributes) {limit : Nat}
    (hraw : ∀ a ∈ raw, a.span.Upto limit) :
    (∀ f, resolve raw parent = .error f → f.Upto limit) ∧
      ∀ a, resolve raw parent = .ok a → ∀ p ∈ a.explicit, p.2.Upto limit := by
  have hfold : ∀ start : Attributes, (∀ p ∈ start.explicit, p.2.Upto limit) →
      (∀ f, raw.foldlM apply start = .error f → f.Upto limit) ∧
        ∀ a, raw.foldlM apply start = .ok a → ∀ p ∈ a.explicit, p.2.Upto limit := by
    induction raw with
    | nil =>
      intro start hstart
      refine ⟨nofun, ?_⟩
      rintro _ ⟨⟩
      exact hstart
    | cons first raw ih =>
      intro start hstart
      obtain ⟨hfirst, hraw⟩ := forall_mem_cons.mp hraw
      rw [foldlM_cons]
      cases happly : apply start first with
      | error f =>
        have hf : f.Upto limit := by
          unfold apply at happly
          split at happly
          · cases happly
            exact hfirst.fault _
          split at happly
          · cases happly
          cases happly
          exact hfirst.fault _
        refine ⟨?_, nofun⟩
        rintro _ ⟨⟩
        exact hf
      | ok next =>
        refine ih hraw next ?_
        unfold apply at happly
        split at happly
        · cases happly
        next key _ =>
          split at happly
          next a ha =>
            cases happly
            rw [set_explicit ha, forall_mem_append, forall_mem_singleton]
            exact ⟨hstart, hfirst⟩
          · cases happly
  exact hfold parent.inherit nofun

namespace Document

variable (registry : Registry) (settings : Settings) (source : Text)

theorem unknownMode_settles {α : Type} {Q : α → Session → Prop} (name : Text) {span : Span}
    (hspan : span.Upto b.limit) : r.Rests (unknownMode registry name span) s Q :=
  .fail (hspan.fault _)

theorem reportLeftovers_settles {attributes : Attributes}
    (hattributes : ∀ p ∈ attributes.explicit, p.2.Upto b.limit) {used : List AttributeKey}
    {cause : Text → Cause} : r.Rests (reportLeftovers attributes used cause) s fun _ _ => True := by
  refine .forM (I := fun _ => True) trivial fun p hp s1 _ => ?_
  have hspan := hattributes p (mem_filter.mp hp).1
  exact (Stretch.Settles.warn (hspan.fault _)).mono fun _ _ _ _ => trivial

theorem chooseMode_settles {tag : StartTag} (htag : tag.Fit b.limit) (registry : Registry)
    (attributes : Attributes) : r.Rests (chooseMode registry tag attributes) s fun _ _ => True := by
  unfold chooseMode
  split
  · split
    · exact .pure trivial
    · refine unknownMode_settles registry _ ?_
      cases hfind : tag.region.find? (·.name == AttributeKey.mode.name) with
      | none => exact htag.span
      | some raw => exact htag.region raw (mem_of_find?_eq_some hfind)
  · split
    · exact .pure trivial
    · exact .pure trivial
    · exact unknownMode_settles registry _ htag.span

theorem openElement_settles (tag : StartTag) {attributes : Attributes}
    (hattributes : ∀ p ∈ attributes.explicit, p.2.Upto b.limit) (region : Region) :
    r.Rests (openElement tag attributes region) s fun _ _ => True := by
  refine .bind (reportLeftovers_settles hattributes) fun _ _ _ _ => .session (.bind .emit ?_)
  exact fun _ _ _ _ => (Stretch.Settles.modifyOutput rfl id).mono fun _ _ _ _ => trivial

/-! ## Frames -/

/-- A frame waits for a child to end. -/
structure Waits (r : Stretch b) (p : Nat) (frame : Frame) : Prop where
  noted : frame.region.Noted r p
  calm : frame.region.escaped = false
  tag : ∀ tag ∈ frame.tag, tag.span.Upto b.limit

variable {frame : Frame}

theorem Waits.mono {p q : Nat} (h : Waits r p frame) (hle : p ≤ q) :
    Waits r q frame :=
  ⟨h.noted.mono hle, h.calm, h.tag⟩

/-- A frame reads on at the cursor. -/
structure Reading (r : Stretch b) (c : Cursor) (frame : Frame) : Prop where
  noted : frame.region.Noted r c.position
  escapes : frame.region.escaped = true → c.past.head? = some '\\'
  tag : ∀ tag ∈ frame.tag, tag.span.Upto b.limit

theorem Waits.reading {c : Cursor} (h : Waits r c.position frame) :
    Reading r c frame :=
  ⟨h.noted, fun hescaped => absurd (h.calm.symm.trans hescaped) Bool.false_ne_true, h.tag⟩

/-- The innermost frame reads on, and those around it wait. -/
def Framed (r : Stretch b) (c : Cursor) : List Frame → Prop
  | [] => True
  | frame :: outer => Reading r c frame ∧ ∀ f ∈ outer, Waits r c.position f

theorem framed_of_waits {c : Cursor} {frames : List Frame}
    (h : ∀ f ∈ frames, Waits r c.position f) : Framed r c frames := by
  cases frames with
  | nil => trivial
  | cons frame outer =>
    obtain ⟨hframe, houter⟩ := forall_mem_cons.mp h
    exact ⟨hframe.reading, houter⟩

theorem enter_settles (spec : ModeSpec) (attributes : Attributes)
    (dialect : Option Dialect) {tag : Option OpenTag} (htag : ∀ t ∈ tag, t.span.Upto b.limit)
    {front : Region → Compile Unit}
    (hfront : ∀ {region s}, r.Rests (front region) s fun _ _ => True) :
    r.Rests (enter spec attributes dialect tag front) s
      fun frame s' => Waits r s'.cursor.position frame := by
  refine .session ?_
  extract_lets rest
  have hrest : ∀ u {s1}, r.Rests (rest u) s1 fun frame s' => Waits r s'.cursor.position frame := by
    intro u s1
    refine .bind create_settles fun region s2 _ hregion => .bind hfront fun _ s3 h3 _ => ?_
    refine .bind .mark fun mark s4 h4 _ => ?_
    have hnoted := hregion.noted.mono (h3.trans h4).moved.position_le
    refine .bind (start_settles ⟨hnoted, hregion.calm⟩) fun region' s5 _ h5 => ?_
    exact .pure ⟨h5.noted, h5.calm, htag⟩
  cases dialect with
  | none => exact hrest ()
  | some dialect => exact .bind (.modifyOutput rfl id) fun u _ _ _ => hrest u

theorem openChild_settles (parent : Frame) :
    hexpands.Settles (@openChild · registry parent) s fun child s' =>
      ∀ frame ∈ child, Waits r s'.cursor.position frame := by
  have hsome : ∀ {x : Compile Frame} {s1},
      (r.Rests x s1 fun frame s' => Waits r s'.cursor.position frame) →
      r.Rests (x >>= fun frame => pure (some frame)) s1
        fun child s' => ∀ frame ∈ child, Waits r s'.cursor.position frame := by
    refine fun hx => .bind hx fun frame s2 _ hframe => .pure ?_
    rintro _ ⟨⟩
    exact hframe
  have hat : s.cursor.position - 1 ≤ s.cursor.position := Nat.sub_le ..
  refine .position (.bind .scan fun comment s1 h1 _ => ?_)
  split
  · refine .position ?_
    have hspan : Span.Upto b.limit ⟨s.cursor.position - 1, s1.cursor.position⟩ :=
      ⟨Nat.le_trans hat h1.moved.position_le, h1.holds.cursor.position_le⟩
    split
    · exact unknownMode_settles registry _ hspan
    next spec _ =>
      refine hsome (enter_settles spec _ none ?_ (.pure trivial))
      rintro _ ⟨⟩
      exact hspan
  · refine .bind (StartTag.read_settles hexpands (Nat.le_trans hat h1.moved.position_le)) ?_
    intro tag s2 _ htag
    obtain ⟨herror, hok⟩ := Attributes.resolve_spans parent.attributes htag.region
    cases hresolve : Attributes.resolve tag.region parent.attributes with
    | error f => exact .throw (herror f hresolve)
    | ok attributes =>
      have hattributes := hok attributes hresolve
      refine .bind (chooseMode_settles htag registry attributes) fun spec s3 _ _ => ?_
      split
      · refine .bind (reportLeftovers_settles hattributes) fun _ s4 _ _ => ?_
        exact .output (.bind .emit fun _ _ _ _ => .pure fun _ h => by cases h)
      refine hsome (enter_settles spec attributes attributes.dialect ?_
        (openElement_settles tag hattributes _))
      rintro _ ⟨⟩
      exact htag.span

theorem emitSome_settles {t : Option Text} : r.Rests (emitSome t) s fun _ _ => True := by
  cases t with
  | none => exact .pure trivial
  | some t => exact Stretch.Settles.emit.mono fun _ _ _ _ => trivial

theorem leave_settles (hnoted : frame.region.Noted r s.cursor.position) :
    r.Rests (leave frame) s fun faults _ => ∀ f ∈ faults, f.Upto b.limit := by
  rw [leave_eq]
  refine .bind (finish_settles hnoted) fun _ s1 _ _ => .output (.bind emitSome_settles ?_)
  refine fun _ s2 _ _ => .bind .endRegion fun faults s3 _ hfaults => ?_
  refine .output (.bind emitSome_settles fun _ s4 _ _ => .of_eq rfl (fun hs => ?_) hfaults)
  exact ⟨⟨⟨hs.cursor.base, hs.cursor.input, hs.cursor.opened, hs.cursor.closed⟩, hs.value,
    hs.pendings, hs.warnings⟩, (Cursor.Moved.refl _).congr rfl rfl rfl⟩

theorem closeTag_settles {tag : OpenTag} : r.Rests (closeTag tag) s fun _ _ => True := by
  refine .position (.bind .scan fun name s1 h1 _ => ?_)
  split
  · refine .position (.fail (Fault.upto_of_le ?_ h1.holds.cursor.position_le))
    exact Nat.le_trans (Nat.sub_le ..) h1.moved.position_le
  · exact .pure trivial

theorem closeRegion_settles {outer : List Frame} (hnoted : frame.region.Noted r s.cursor.position)
    (houter : ∀ f ∈ outer, Waits r s.cursor.position f) :
    r.Rests (closeRegion frame outer) s fun p s' =>
      Framed r s'.cursor p.1 ∧ ∀ f ∈ p.2, f.Upto b.limit := by
  have hframed : ∀ {s'}, r.Goes s s' → Framed r s'.cursor outer := fun h =>
    framed_of_waits fun f hf => (houter f hf).mono h.moved.position_le
  unfold closeRegion
  split
  · refine .position (.bind .scan fun name s1 h1 _ => ?_)
    refine .position (.fail (Fault.upto_of_le ?_ h1.holds.cursor.position_le))
    exact Nat.le_trans (Nat.sub_le ..) h1.moved.position_le
  next tag _ =>
    split
    · refine .bind closeTag_settles fun _ s1 h1 _ => ?_
      refine .bind (leave_settles (hnoted.mono h1.moved.position_le)) fun faults s2 h2 hfaults => ?_
      refine .bind (.modifyOutput rfl id) fun _ s3 h3 _ => .bind .emit fun _ s4 h4 _ => ?_
      exact .pure ⟨hframed (((h1.trans h2).trans h3).trans h4), hfaults⟩
    · refine .output (.bind (leave_settles hnoted) fun faults s1 h1 hfaults => ?_)
      split
      next link parent frames _ =>
        obtain ⟨hparent, hframes⟩ := forall_mem_cons.mp houter
        have hparent := hparent.mono h1.moved.position_le
        refine .bind (accept_settles ⟨hparent.noted, hparent.calm⟩ link) fun region s2 h2 hregion => ?_
        refine .pure ⟨framed_of_waits (forall_mem_cons.mpr
          ⟨⟨hregion.noted, hregion.calm, hparent.tag⟩, fun f hf => ?_⟩), hfaults⟩
        exact (hframes f hf).mono (h1.trans h2).moved.position_le
      · exact .pure ⟨hframed h1, hfaults⟩

theorem endDocument_settles (frame : Frame) (hnoted : frame.region.Noted r s.cursor.position)
    (htag : ∀ tag ∈ frame.tag, tag.span.Upto b.limit) :
    r.Rests (endDocument frame) s fun faults _ => ∀ f ∈ faults, f.Upto b.limit := by
  unfold endDocument
  split
  · exact leave_settles hnoted
  next tag heq => exact .fail ((htag tag heq).fault _)

/-- What one step of a document leaves. Unless nothing is open any more, it has read a character. -/
structure Advanced (r : Stretch b) (s s' : Session) (frames : List Frame) (faults : List Fault) :
    Prop where
  framed : Framed r s'.cursor frames
  faults : ∀ f ∈ faults, f.Upto b.limit
  reads : frames ≠ [] → s'.cursor.rest.length < s.cursor.rest.length

theorem advance_settles {outer : List Frame} (hframed : Framed r s.cursor (frame :: outer)) :
    hexpands.Settles (@advance · _ registry frame outer) s fun p s' => Advanced r s s' p.1 p.2 := by
  obtain ⟨hframe, houter⟩ := hframed
  refine .bind (step_settles hexpands hframe.noted hframe.escapes) ?_
  rintro ⟨region, step⟩ s1 hgoes h1
  have houter1 : ∀ {s2}, r.Goes s1 s2 → ∀ f ∈ outer, Waits r s2.cursor.position f := fun h f hf =>
    (houter f hf).mono (hgoes.trans h).moved.position_le
  have hreads : ∀ {s2}, step ≠ .eof → r.Goes s1 s2 →
      s2.cursor.rest.length < s.cursor.rest.length := fun hstep h =>
    Nat.lt_of_le_of_lt h.moved.length_le (h1.reads hstep)
  have hstays := hgoes.holds.goes
  cases step with
  | next =>
    exact .pure ⟨⟨⟨h1.noted, h1.escapes rfl, hframe.tag⟩, houter1 hstays⟩, nofun,
      fun _ => hreads nofun hstays⟩
  | child =>
    refine .bind (openChild_settles hexpands registry _) fun child s2 h2 hchild => ?_
    have hwaits : ∀ f ∈ { frame with region } :: outer, Waits r s2.cursor.position f :=
      forall_mem_cons.mpr
        ⟨⟨h1.noted.mono h2.moved.position_le, h1.calm rfl, hframe.tag⟩, houter1 h2⟩
    have hadvanced : ∀ {frames}, Framed r s2.cursor frames → Advanced r s s2 frames [] := fun h =>
      ⟨h, nofun, fun _ => hreads nofun h2⟩
    cases child with
    | none => exact .pure (hadvanced (framed_of_waits hwaits))
    | some child => exact .pure (hadvanced ⟨(hchild child rfl).reading, hwaits⟩)
  | close =>
    refine (closeRegion_settles h1.noted (houter1 hstays)).mono ?_
    rintro ⟨frames, faults⟩ s2 h2 ⟨hframes, hfaults⟩
    exact ⟨hframes, hfaults, fun _ => hreads nofun h2⟩
  | eof =>
    refine .bind (endDocument_settles { frame with region } h1.noted hframe.tag) ?_
    exact fun faults s2 _ hfaults => .pure ⟨trivial, hfaults, fun h => absurd rfl h⟩

/-! ## Runs -/

/-- What a run reports lies within the bounds, and it halts only where they account for it. -/
def Run.Fit (b : Bounds) : Run → Prop
  | .done s faults => (∀ f ∈ s.warnings, f.Upto b.limit) ∧ ∀ f ∈ faults, f.Upto b.limit
  | .halted h faults => b.Halts h ∧ ∀ f ∈ faults, f.Upto b.limit

/-- The fuel suffices, since every step but the last reads a character. -/
theorem run_settles (hexpands : Expands r E E') (registry : Registry) {fuel : Nat}
    {frames : List Frame} {faults : List Fault} (hs : r.Holds s) (hframed : Framed r s.cursor frames)
    (hfaults : ∀ f ∈ faults, f.Upto b.limit)
    (hfuel : frames ≠ [] → s.cursor.rest.length < fuel) :
    @run E _ registry fuel frames faults s = @run E' _ registry fuel frames faults s ∧
      Run.Fit b (@run E' _ registry fuel frames faults s) := by
  induction fuel generalizing frames faults s with
  | zero =>
    cases frames with
    | nil => exact ⟨rfl, hs.warnings, hfaults⟩
    | cons frame outer => exact absurd (hfuel nofun) (Nat.not_lt_zero _)
  | succ fuel ih =>
    cases frames with
    | nil => exact ⟨rfl, hs.warnings, hfaults⟩
    | cons frame outer =>
      have hadvance := advance_settles hexpands registry hframed hs
      have hsame : @advance E _ registry frame outer s = @advance E' _ registry frame outer s :=
        hadvance.same
      unfold run
      rw [hsame]
      cases hok : @advance E' _ registry frame outer s with
      | error h => exact ⟨rfl, hadvance.halts h hok, hfaults⟩
      | ok p =>
        obtain ⟨hgoes, h1⟩ := hadvance.result _ _ hok
        refine ih hgoes.holds h1.framed (forall_mem_append.mpr ⟨hfaults, h1.faults⟩) fun hne => ?_
        have hlt := h1.reads hne
        have hle := hfuel nofun
        omega

/-! ## Whole documents -/

theorem enterRoot_settles :
    r.Rests (enterRoot registry) s fun root s' => Waits r s'.cursor.position root := by
  refine .session ?_
  dsimp only
  split
  · exact unknownMode_settles registry _ ⟨Nat.le_refl 0, Nat.zero_le _⟩
  · exact enter_settles _ _ _ (fun _ h => by cases h) (.pure trivial)

/-- Read a document as `process` does, with a way to expand fragments. -/
def processBy [Expansion] [Editor] (registry : Registry) (settings : Settings) (source : Text) : Run :=
  match enterRoot registry (Session.start settings source) with
  | .error h => .halted h []
  | .ok (root, s) => run registry (source.length + 1) [root] [] s

/-- How far a position may lie beyond the end of a document. A chained read is expanded with the name
of the value in front, and that name may be longer than what stands before the chain. If the name has
no `*` itself, this can only be so at the start of the document. -/
def overhang (value source : Text) : Nat :=
  if '*' ∈ value then (source.countP isMarker + value.countP isMarker) * bytes value
  else if '*' ∈ source then bytes value - (bytes (source.takeWhile (· != '*')) + 2)
  else 0

def bounds (settings : Settings) (source : Text) : Bounds where
  limit := bytes source + overhang settings.names.value source
  value := settings.names.value
  plain := (∀ c ∈ source, isAsciiOrLetter c = true) ∧
    ∀ c ∈ settings.names.value, isAsciiOrLetter c = true

def stretch (settings : Settings) (source : Text) : Stretch (bounds settings source) where
  base := 0
  text := source
  fits := by
    rw [Nat.zero_add]
    exact Nat.le_add_right ..
  plain h := h.1

/-- Nothing in front of a `*` is shorter than what stands before the first one. -/
theorem takeWhile_le {source front back : Text} (h : source = front ++ '*' :: back) :
    bytes (source.takeWhile (· != '*')) ≤ bytes front := by
  subst h
  induction front with
  | nil => exact Nat.le_refl 0
  | cons c front ih =>
    rw [cons_append, takeWhile_cons]
    split
    · rw [bytes, bytes]
      omega
    · exact Nat.zero_le _

theorem bounds_room :
    (bounds settings source).Room
      (source.countP isMarker + settings.names.value.countP isMarker) 0 source := by
  have hlimit : 0 + bytes source + overhang settings.names.value source =
      (bounds settings source).limit := congrArg (· + _) (Nat.zero_add _)
  refine ⟨overhang settings.names.value source, Nat.le_of_eq hlimit, fun hstar => ?_,
    fun hstar front back hsource => ?_⟩
  · have hstar : '*' ∈ settings.names.value := hstar
    exact Nat.le_of_eq (if_pos hstar).symm
  · have hstar : '*' ∉ settings.names.value := hstar
    have hmem : '*' ∈ source := hsource ▸ mem_append_right _ (mem_cons_self ..)
    have hle := takeWhile_le hsource
    show bytes settings.names.value ≤ _
    rw [overhang, if_neg hstar, if_pos hmem]
    omega

theorem stretch_holds : (stretch settings source).Holds (Session.start settings source) :=
  ⟨⟨rfl, rfl, nofun, nofun⟩, rfl, nofun, nofun⟩

theorem stretch_expands (h : Halt) :
    Expands (stretch settings source) (Expansion.strict source h) Expansion.direct :=
  strict_expands (fun hplain => And.right hplain) (stretch settings source) rfl
    (bounds_room settings source) h

/-- Every fragment of a document is expanded where it stands, and what the run comes to is within the
bounds of the document. -/
theorem process_settles (h : Halt) :
    @processBy (Expansion.strict source h) _ registry settings source =
        process registry settings source ∧
      Run.Fit (bounds settings source) (process registry settings source) := by
  have hholds := stretch_holds settings source
  have hexpands := stretch_expands settings source h
  have hroot := enterRoot_settles registry hholds
  unfold processBy process
  cases hok : enterRoot registry (Session.start settings source) with
  | error halt => exact ⟨rfl, hroot.halts halt hok, nofun⟩
  | ok p =>
    obtain ⟨h1, hwaits⟩ := hroot.result _ _ hok
    refine run_settles hexpands registry h1.holds
      (framed_of_waits (forall_mem_singleton.mpr hwaits)) nofun fun _ => ?_
    exact Nat.lt_succ_of_le h1.moved.length_le

end Document

/-- A document is compiled or rejected, if its characters are ASCII or letters and so are those of the
name of the value, which has no marker. No text is cut within a character, out of range or in reverse,
and no bound is reached. -/
theorem document_answered (registry : Registry) (settings : Settings) (file : Nat) {source : Text}
    (hsource : source.all Text.isAsciiOrLetter = true)
    (hvalue : settings.names.value.all (fun c => Text.isAsciiOrLetter c && !isMarker c) = true) :
    compileWith registry settings file source ≠ .stopped := by
  have hvalue : ∀ c ∈ settings.names.value, Text.isAsciiOrLetter c = true ∧ isMarker c = false := by
    intro c hc
    have h := List.all_eq_true.mp hvalue c hc
    rwa [Bool.and_eq_true_iff, Bool.not_eq_true'] at h
  have hfit := (Document.process_settles registry settings source .split).2
  intro hstopped
  unfold compileWith at hstopped
  split at hstopped
  next => cases hstopped
  next => cases hstopped
  next => cases hstopped
  next halt faults hfault hhalted =>
    rw [hhalted] at hfit
    cases halt with
    | fault f => exact hfault f rfl
    | split => exact hfit.1 ⟨List.all_eq_true.mp hsource, fun c hc => (hvalue c hc).1⟩
    | spent =>
      obtain ⟨c, hc, hmarker⟩ := List.any_eq_true.mp hfit.1
      exact Bool.false_ne_true ((hvalue c hc).2.symm.trans hmarker)

/-- Letters outside ASCII, in words, a string, a computed arrow and a chained read. -/
theorem document_answered_letters :
    compile {} 0 "<p #logic>\nconst é = &(ß => *ä.ö('日本'));\n$\x7b*é\x7d\n</p>" ≠ .stopped :=
  document_answered .standard {} 0 (by decide +kernel) (by decide +kernel)

end Patchwork
