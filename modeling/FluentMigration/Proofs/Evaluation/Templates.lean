import FluentMigration.Proofs.Evaluation.Writable
import FluentMigration.Transform.FromFluent
/-!
Templates written as Fluent. Calls of `COPY` and `COPY_PATTERN` give way to source strings, and
everything else stays as it was parsed, so that what a template says literally can be written
(`ofFluent_writable`).
-/

namespace FluentMigration

open Fluent

variable {plain : Prop}

theorem Fluent.Pattern.Stable.noReturn {es : List Element} (h : Pattern.Stable plain ⟨es⟩)
    (hplain : plain) {v : String} (hv : .text v ∈ es) : '\r' ∉ v.toList := by
  simpa [Element.hasReturn] using (h.1.1.2 hplain).noReturn _ hv

theorem Fluent.Expression.Stable.selector {selector : Inline} {variants : List Variant}
    (h : (Expression.select selector variants).Stable plain) : selector.reread = selector := by
  have hreread := h.2
  rw [Expression.reread, Expression.select.injEq] at hreread
  exact hreread.1

theorem rereadVariants_eq_map (vs : List Variant) : rereadVariants vs = vs.map Variant.reread := by
  induction vs with
  | nil => rfl
  | cons v rest ih => simp [rereadVariants, ih]

theorem Fluent.Expression.Stable.variants {selector : Inline} {variants : List Variant}
    (h : (Expression.select selector variants).Stable plain) :
    ∀ v ∈ variants, v.key.WellFormed ∧ v.value.Stable plain := by
  obtain ⟨⟨_, _, _, hwf⟩, hreread⟩ := h
  rw [Expression.reread, Expression.select.injEq, rereadVariants_eq_map] at hreread
  intro v hv
  have hsame := List.map_inj_left.1 (hreread.2.trans (List.map_id _).symm) v hv
  obtain ⟨key, value, isDefault⟩ := v
  obtain ⟨hkey, hvalue⟩ := variantsWellFormed_iff.1 hwf _ hv
  simp only [Variant.reread, id_eq, Variant.mk.injEq] at hsame
  exact ⟨hkey, hvalue, hsame.2.1⟩

theorem Fluent.Expression.Stable.nested {content : Expression}
    (h : (Expression.inline (.placeable content)).Stable plain) : content.Stable plain := by
  have hreread := h.2
  simp only [Expression.reread, Inline.reread, Expression.inline.injEq,
    Inline.placeable.injEq] at hreread
  exact ⟨h.1.2, hreread⟩

theorem Fluent.Attribute.Stable.value {a : Attribute} (h : a.Stable plain) : a.value.Stable plain :=
  ⟨h.1.2, congrArg Attribute.value h.2⟩

theorem Fluent.Entry.Stable.value {e : Entry} (h : e.Stable plain) :
    ∀ p ∈ e.value?, p.Stable plain := by
  intro p hp
  have hreread := congrArg Entry.value? h.same
  rw [value?_reread, hp, Option.map_some, Option.some.injEq] at hreread
  exact ⟨h.shaped.value p hp, hreread⟩

theorem Fluent.Entry.Stable.attributes {e : Entry} (h : e.Stable plain) :
    ∀ a ∈ e.attributes, a.Stable plain := by
  have hreread := congrArg Entry.attributes h.same
  rw [attributes_reread] at hreread
  exact fun a ha =>
    ⟨h.shaped.attributes a ha, List.map_inj_left.1 (hreread.trans (List.map_id _).symm) a ha⟩

theorem Fluent.Entry.Stable.patterns {e : Entry} (h : e.Stable plain) :
    ∀ p ∈ e.patterns, p.Stable plain := by
  intro p hp
  rcases List.mem_append.1 hp with hp | hp
  · exact h.value p (Option.mem_toList.1 hp)
  · obtain ⟨a, ha, rfl⟩ := List.mem_map.1 hp
    exact (h.attributes a ha).value

namespace FromFluent

theorem concatenate_writable {parts : List Transform} (h : PartsWritable plain parts) :
    (Transform.concatenate parts).Writable plain := by
  unfold Transform.concatenate
  split
  · split
    · exact h.1
    · exact h
  · exact h

theorem gather_writable {parts : List Transform} (h : PartsWritable plain parts) :
    (gather parts).Writable plain := by
  unfold gather
  split
  · exact concatenate_writable h
  · exact h.1
  · exact concatenate_writable h

theorem ofCall_writable {symbols : Symbols} {name : String} {arguments : Arguments}
    (hwf : (Inline.function name arguments).WellFormed (Spelled plain)) {t : Transform}
    (h : ofCall symbols name arguments = .ok t) : t.Writable plain := by
  unfold ofCall at h
  split at h
  · obtain ⟨_, _, h⟩ := bind_eq_ok.1 h
    obtain ⟨_, _, h⟩ := bind_eq_ok.1 h
    obtain ⟨_, _, h⟩ := bind_eq_ok.1 h
    cases h
    trivial
  · split at h
    · obtain ⟨_, _, h⟩ := bind_eq_ok.1 h
      obtain ⟨_, _, h⟩ := bind_eq_ok.1 h
      cases h
      trivial
    · split at h
      · cases h
      · split at h
        · cases h
        · cases h
          exact ⟨rfl, hwf⟩

section

variable {symbols : Symbols}

mutual

theorem ofInline_writable (e : Inline) (he : (Expression.inline e).Stable plain) {t : Transform}
    (h : ofInline symbols e = .ok t) : t.Writable plain := by
  cases e with
  | function name arguments => exact ofCall_writable he.1.2 h
  | placeable content => exact ofExpression_writable content he.nested h
  | string raw =>
    cases h
    exact he.1
  | number raw =>
    cases h
    exact he.1
  | «variable» id =>
    cases h
    exact he.1
  | message id attr =>
    cases h
    exact he.1
  | term id attr arguments =>
    cases h
    exact he.1
termination_by structural e

theorem ofExpression_writable (e : Expression) (he : e.Stable plain) {t : Transform}
    (h : ofExpression symbols e = .ok t) : t.Writable plain := by
  cases e with
  | inline content => exact ofInline_writable content he h
  | select selector variants =>
    obtain ⟨ts, hts, h⟩ := bind_eq_ok.1 h
    cases h
    obtain ⟨hvariants, hcount⟩ := ofVariants_writable variants he.variants hts
    obtain ⟨hcan, hselector, hone, _⟩ := he.1
    exact ⟨hcan, hselector, he.selector, hcount ▸ hone, hvariants⟩
termination_by structural e

theorem ofVariants_writable (vs : List Variant)
    (hvs : ∀ v ∈ vs, v.key.WellFormed ∧ v.value.Stable plain) {ts : List TransformVariant}
    (h : ofVariants symbols vs = .ok ts) :
    VariantsWritable plain ts ∧ ts.countP (·.isDefault) = vs.countP (·.isDefault) := by
  cases vs with
  | nil =>
    cases h
    exact ⟨trivial, rfl⟩
  | cons v rest =>
    rw [ofVariants] at h
    obtain ⟨first, hfirst, h⟩ := bind_eq_ok.1 h
    obtain ⟨others, hothers, h⟩ := bind_eq_ok.1 h
    cases h
    rw [List.forall_mem_cons] at hvs
    obtain ⟨hkey, hvalue, hdefault⟩ := ofVariant_writable v hvs.1 hfirst
    obtain ⟨hrest, hcount⟩ := ofVariants_writable rest hvs.2 hothers
    obtain ⟨key, value, isDefault⟩ := first
    refine ⟨⟨hkey, hvalue, hrest⟩, ?_⟩
    rw [List.countP_cons, List.countP_cons, hcount, hdefault]
termination_by structural vs

theorem ofVariant_writable (v : Variant) (hv : v.key.WellFormed ∧ v.value.Stable plain)
    {t : TransformVariant} (h : ofVariant symbols v = .ok t) :
    t.key.WellFormed ∧ t.value.Writable plain ∧ t.isDefault = v.isDefault := by
  obtain ⟨key, value, isDefault⟩ := v
  obtain ⟨t, ht, h⟩ := bind_eq_ok.1 h
  cases h
  exact ⟨hv.1, ofPattern_writable value hv.2 ht, rfl⟩
termination_by structural v

theorem ofPattern_writable (p : Pattern) (hp : p.Stable plain) {t : Transform}
    (h : ofPattern symbols p = .ok t) : t.Writable plain := by
  obtain ⟨es⟩ := p
  obtain ⟨parts, hparts, h⟩ := bind_eq_ok.1 h
  cases h
  exact gather_writable (ofElements_writable es hp.contents
    (fun _ hv hplain => hp.noReturn hplain hv) hparts)
termination_by structural p

theorem ofElements_writable (es : List Element) (hcontents : ∀ e ∈ contents es, e.Stable plain)
    (htexts : ∀ v, .text v ∈ es → plain → '\r' ∉ v.toList) {parts : List Transform}
    (h : FromFluent.ofElements symbols es = .ok parts) : PartsWritable plain parts := by
  cases es with
  | nil =>
    cases h
    trivial
  | cons e rest =>
    have htexts' := fun v hv => htexts v (List.mem_cons_of_mem _ hv)
    cases e with
    | text value =>
      obtain ⟨others, hothers, h⟩ := bind_eq_ok.1 h
      cases h
      exact ⟨htexts value List.mem_cons_self, ofElements_writable rest hcontents htexts' hothers⟩
    | placeable content =>
      obtain ⟨first, hfirst, h⟩ := bind_eq_ok.1 h
      obtain ⟨others, hothers, h⟩ := bind_eq_ok.1 h
      cases h
      have hfront : ∀ e ∈ content :: contents rest, e.Stable plain := hcontents
      rw [List.forall_mem_cons] at hfront
      exact ⟨ofExpression_writable content hfront.1 hfirst,
        ofElements_writable rest hfront.2 htexts' hothers⟩
termination_by structural es

end

end

end FromFluent

/-- A template that is evaluated to an entry that can be written. -/
structure Template.Writable (plain : Prop) (m : Template) : Prop where
  identifier : isIdentifier m.identifier.toList = true
  value : ∀ t ∈ m.value, t.Writable plain
  attributes : ∀ a ∈ m.attributes, isIdentifier a.id.toList = true ∧ a.value.Writable plain
  content : m.value.isSome ∨ m.isTerm = false ∧ m.attributes ≠ []
  comment : plain → ∀ content ∈ m.comment, '\r' ∉ content.toList

theorem mapM_sound {ε α β : Type} {f : α → Except ε β} {l : List α} {out : List β}
    (h : l.mapM f = .ok out) :
    out.length = l.length ∧ ∀ y ∈ out, ∃ x ∈ l, f x = .ok y := by
  induction l generalizing out with
  | nil =>
    cases h
    exact ⟨rfl, nofun⟩
  | cons a rest ih =>
    rw [List.mapM_cons] at h
    obtain ⟨b, hb, h⟩ := bind_eq_ok.1 h
    obtain ⟨others, hothers, h⟩ := bind_eq_ok.1 h
    cases h
    obtain ⟨hlength, hall⟩ := ih hothers
    refine ⟨by simp [hlength], fun y hy => ?_⟩
    rcases List.mem_cons.1 hy with rfl | hy
    · exact ⟨a, List.mem_cons_self, hb⟩
    · obtain ⟨x, hx, hfx⟩ := hall y hy
      exact ⟨x, List.mem_cons_of_mem _ hx, hfx⟩

namespace FromFluent

variable {symbols : Symbols}

theorem ofAttribute_writable {a : Attribute} (ha : a.Stable plain) {template : AttributeTemplate}
    (h : ofAttribute symbols a = .ok template) :
    isIdentifier template.id.toList = true ∧ template.value.Writable plain := by
  obtain ⟨t, ht, h⟩ := bind_eq_ok.1 h
  cases h
  exact ⟨ha.1.1, ofPattern_writable a.value ha.value ht⟩

theorem ofParts_sound {key : String} {value : Option Pattern} {attributes : List Attribute}
    {comment : Option String} (hvalue : ∀ p ∈ value, p.Stable plain)
    (hattributes : ∀ a ∈ attributes, a.Stable plain) {m : Template}
    (h : ofParts symbols key value attributes comment = .ok m) :
    m.key = key ∧ m.comment = comment ∧ m.value.isSome = value.isSome ∧
      m.attributes.length = attributes.length ∧ (∀ t ∈ m.value, t.Writable plain) ∧
      ∀ a ∈ m.attributes, isIdentifier a.id.toList = true ∧ a.value.Writable plain := by
  have hparts : ∃ t : Option Transform, t.isSome = value.isSome ∧ (∀ u ∈ t, u.Writable plain) ∧
      (attributes.mapM (ofAttribute symbols) >>= fun templates =>
        Except.ok (⟨key, t, templates, comment⟩ : Template)) = .ok m := by
    cases value with
    | none => exact ⟨none, rfl, nofun, h⟩
    | some pattern =>
      obtain ⟨t, ht, h⟩ := bind_eq_ok.1 h
      obtain ⟨u, hu, rfl⟩ := map_eq_ok.1 ht
      refine ⟨some u, rfl, fun w hw => ?_, h⟩
      cases hw
      exact ofPattern_writable pattern (hvalue pattern rfl) hu
  obtain ⟨t, hsome, hwritable, h⟩ := hparts
  obtain ⟨templates, htemplates, h⟩ := bind_eq_ok.1 h
  cases h
  obtain ⟨hlength, hall⟩ := mapM_sound htemplates
  refine ⟨rfl, rfl, hsome, hlength, hwritable, fun a ha => ?_⟩
  obtain ⟨x, hx, hax⟩ := hall a ha
  exact ofAttribute_writable (hattributes x hx) hax

theorem isTerm_dash {m : Template} {id : String} (h : m.key = "-" ++ id) :
    m.isTerm = true ∧ m.identifier = id := by
  simp [Template.isTerm, Template.identifier, h]

/-- The key of a message is its identifier, which begins with a letter. -/
theorem isTerm_identifier {m : Template} (h : isIdentifier m.key.toList = true) :
    m.isTerm = false ∧ m.identifier = m.key := by
  obtain ⟨c, r, hkey, hletter⟩ := identifier_head h
  have hdash : c ≠ '-' := by
    rintro rfl
    exact absurd hletter (by decide)
  constructor
  · simp [Template.isTerm, hkey, hdash]
  · unfold Template.identifier
    split
    · next id hid =>
      rw [hkey] at hid
      cases hid
      exact absurd rfl hdash
    · rfl

theorem ofEntry_writable {e : Entry} (he : e.Stable plain) {m : Template}
    (h : ofEntry symbols e = .ok (some m)) : m.Writable plain := by
  have hvalue := he.value
  have hattributes := he.attributes
  cases e with
  | message message =>
    obtain ⟨m, hm, ⟨⟩⟩ := map_eq_ok.1 h
    obtain ⟨hid, _, _, hcontent⟩ := he.shaped
    obtain ⟨hkey, hsame, hsome, hlength, hv, ha⟩ := ofParts_sound hvalue hattributes hm
    obtain ⟨hterm, hidentifier⟩ := isTerm_identifier (hkey ▸ hid)
    exact {
      identifier := by rwa [hidentifier, hkey]
      value := hv
      attributes := ha
      content := by
        rw [hsome]
        refine hcontent.imp_right fun hne => ⟨hterm, fun hnil => hne ?_⟩
        rw [hnil] at hlength
        exact List.length_eq_zero_iff.1 hlength.symm
      comment := by
        rw [hsame]
        exact he.comment }
  | term term =>
    obtain ⟨m, hm, ⟨⟩⟩ := map_eq_ok.1 h
    obtain ⟨hid, _, _⟩ := he.shaped
    obtain ⟨hkey, hsame, hsome, _, hv, ha⟩ := ofParts_sound hvalue hattributes hm
    exact {
      identifier := by rwa [(isTerm_dash hkey).2]
      value := hv
      attributes := ha
      content := .inl (by rw [hsome]; rfl)
      comment := by
        rw [hsame]
        exact he.comment }
  | comment level content => cases h
  | junk j => cases h

end FromFluent

theorem ofFluent_writable {symbols : FromFluent.Symbols} {source : String}
    {templates : List Template} (h : Template.ofFluent symbols source = .ok templates) :
    ∀ m ∈ templates, m.Writable (Text.ReturnsPaired source.toList) := by
  unfold Template.ofFluent at h
  split at h
  · cases h
  · next resource hresource =>
    have hparse : resource = Resource.parse source := by
      simp only [Resource.parse?] at hresource
      split at hresource
      · cases hresource
      · cases hresource
        rfl
    obtain ⟨found, hfound, h⟩ := bind_eq_ok.1 h
    cases h
    intro m hm
    obtain ⟨_, hmem, rfl⟩ := List.mem_filterMap.1 hm
    obtain ⟨e, he, hentry⟩ := (mapM_sound hfound).2 _ hmem
    rw [hparse] at he
    rcases parsed_parse Text.noReturn_normalizeNewlines e he with hjunk | hstable
    · cases e with
      | junk j => cases hentry
      | _ => cases hjunk
    · exact FromFluent.ofEntry_writable hstable hentry

end FluentMigration
