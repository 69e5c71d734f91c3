import PageLint.Proofs.Markup.TagParts

/-!
# What is left open

Markup may end before a token is closed. The step that reads such a token reads all that is left
of the markup and reports it. Only a declaration is left open without a report.
-/

namespace PageLint.Markup

/-! ## Tokens that nothing closes -/

/-- Byte `k` is within the value of the attribute. -/
def RawAttribute.Hides (raw : RawAttribute) (k : Nat) : Prop :=
  ∃ value, raw.value = some value ∧ value.span.start ≤ k ∧ k < value.span.stop

/-- From byte `k` up to byte `stop` of the markup `cs` stands a `>` that is in no value. -/
def Closes (cs : List Char) (k : Nat) (attributes : List RawAttribute) (stop : Nat) : Prop :=
  ∃ j, Text.StandsAt cs j ['>'] ∧ k ≤ j ∧ j < stop ∧ ∀ raw ∈ attributes, ¬ raw.Hides j

/-- The token of the markup `cs` is without the sign that closes tokens of its kind. -/
def Token.Unclosed (cs : List Char) (t : Token) : Prop :=
  match t.kind with
  | .comment => ∃ w post, t.span.Cuts cs w post ∧
    ∀ body, w ≠ '<' :: '!' :: '-' :: '-' :: (body ++ ['-', '-', '>'])
  | .declaration => ∃ w post, t.span.Cuts cs w post ∧ ¬ ['>'] <:+ w
  | .endTag _ => ∃ w post, t.span.Cuts cs w post ∧ ¬ ['>'] <:+ w
  | .startTag _ attributes _ => ¬ Closes cs t.span.start attributes t.span.stop
  | .text _ => False

/-- The token is left open where the markup `cs` ends: it is not closed, or it is the body of a
raw text element and no end tag of the name follows. -/
inductive LeftOpen (cs : List Char) (tokens : List Token) : Token → Prop
  | token {t : Token} (mem : t ∈ tokens) (unclosed : t.Unclosed cs) : LeftOpen cs tokens t
  | body {tag t : Token} {name : String} {attributes : List RawAttribute} {w post : List Char}
      (next : [tag, t] <:+: tokens) (kind : tag.kind = .startTag name attributes false)
      (raw : isRawTextElement name = true) (cuts : t.span.Cuts cs w post)
      (unended : ¬ EndsRawText name post) : LeftOpen cs tokens t

theorem Span.Cuts.unique {cs w w' post post' : List Char} {span : Span}
    (h : span.Cuts cs w post) (h' : span.Cuts cs w' post') : w = w' ∧ post = post' := by
  obtain ⟨pre, hcs, hpre, hstop⟩ := h
  obtain ⟨pre', hcs', hpre', hstop'⟩ := h'
  obtain ⟨rfl, hrest⟩ :=
    Text.append_inj_of_byteLength (hcs.symm.trans hcs') (hpre.trans hpre'.symm)
  exact Text.append_inj_of_byteLength hrest (by omega)

theorem Span.Cuts.exists_iff {cs w post : List Char} {span : Span} (h : span.Cuts cs w post)
    {p : List Char → Prop} : (∃ v rest, span.Cuts cs v rest ∧ p v) ↔ p w := by
  constructor
  · rintro ⟨v, rest, hv, hp⟩
    rwa [(h.unique hv).1]
  · exact fun hp => ⟨w, post, h, hp⟩

section

variable {cs : List Char} {ts us : List Token} {t : Token}

theorem LeftOpen.mono (h : ts <:+: us) (hopen : LeftOpen cs ts t) : LeftOpen cs us t := by
  cases hopen with
  | token mem unclosed => exact .token (h.subset mem) unclosed
  | body next kind raw cuts unended => exact .body (next.trans h) kind raw cuts unended

theorem not_leftOpen_nil : ¬ LeftOpen cs [] t := by
  intro hopen
  cases hopen with
  | token mem => cases mem
  | body next => cases List.infix_nil.mp next

/-- No body is parted from its tag if the first tokens do not end with one that opens raw text. -/
theorem leftOpen_append_iff (h : ∀ last ∈ ts.getLast?, last.kind.opensRawText = false) :
    LeftOpen cs (ts ++ us) t ↔ LeftOpen cs ts t ∨ LeftOpen cs us t := by
  constructor
  · intro hopen
    cases hopen with
    | token mem unclosed =>
      exact (List.mem_append.mp mem).imp (.token · unclosed) (.token · unclosed)
    | @body tag _ _ _ _ _ next kind raw cuts unended =>
      rcases List.infix_append_iff_ne_nil.mp next with
        next | next | ⟨before, after, hbefore, hafter, heq, hsuffix, -⟩
      · exact Or.inl (.body next kind raw cuts unended)
      · exact Or.inr (.body next kind raw cuts unended)
      · -- the tag would be the last of the first tokens
        have hlast : before = [tag] := by
          match before, hbefore with
          | [x], _ =>
            cases heq
            rfl
          | x :: y :: before, _ => simp_all
        obtain ⟨init, rfl⟩ := hlast ▸ hsuffix
        have hopens := h tag List.getLast?_concat
        rw [kind] at hopens
        have hraw : isRawTextElement _ = false := hopens
        rw [raw] at hraw
        cases hraw
  · rintro (hopen | hopen)
    · exact hopen.mono List.infix_append_left
    · exact hopen.mono List.infix_append_right

theorem leftOpen_singleton_iff {u : Token} : LeftOpen cs [u] t ↔ t = u ∧ u.Unclosed cs := by
  constructor
  · intro hopen
    cases hopen with
    | token mem unclosed =>
      obtain rfl := List.mem_singleton.mp mem
      exact ⟨rfl, unclosed⟩
    | body next => exact absurd next.length_le (by simp)
  · rintro ⟨rfl, unclosed⟩
    exact .token (List.mem_singleton_self _) unclosed

theorem leftOpen_pair_iff {tag body : Token} {name content : String}
    {attributes : List RawAttribute} {w post : List Char}
    (kind : tag.kind = .startTag name attributes false) (raw : isRawTextElement name = true)
    (text : body.kind = .text content) (cuts : body.span.Cuts cs w post) :
    LeftOpen cs [tag, body] t ↔
      t = tag ∧ tag.Unclosed cs ∨ t = body ∧ ¬ EndsRawText name post := by
  constructor
  · intro hopen
    cases hopen with
    | token mem unclosed =>
      rcases List.mem_pair.mp mem with rfl | rfl
      · exact Or.inl ⟨rfl, unclosed⟩
      · rw [Token.Unclosed, text] at unclosed
        exact unclosed.elim
    | body next kind' _ cuts' unended =>
      cases next.eq_of_length rfl
      rw [kind] at kind'
      cases kind'
      rw [(cuts.unique cuts').2]
      exact Or.inr ⟨rfl, unended⟩
  · rintro (⟨rfl, unclosed⟩ | ⟨rfl, unended⟩)
    · exact .token List.mem_cons_self unclosed
    · exact .body (List.infix_refl _) kind raw cuts unended

end

/-! ## Signs that close a start tag -/

section

variable {cs : List Char} {k mid stop : Nat} {attributes : List RawAttribute} {raw : RawAttribute}

theorem not_closes_of_past {c d : Cursor} {gap : List Char} (h : c.Past gap d) (hc : c.In cs)
    (hgap : '>' ∉ gap) : ¬ Closes cs c.offset attributes d.offset :=
  fun ⟨_, hj, hle, hlt, _⟩ => hgap ((h.cuts hc).mem hj hle hlt)

theorem closes_iff_of_gap (hle : k ≤ mid) (hgap : ¬ Closes cs k attributes mid) :
    Closes cs k attributes stop ↔ Closes cs mid attributes stop := by
  constructor
  · rintro ⟨j, hj, hkj, hlt, hout⟩
    refine ⟨j, hj, ?_, hlt, hout⟩
    exact Nat.le_of_not_lt fun hjmid => hgap ⟨j, hj, hkj, hjmid, hout⟩
  · rintro ⟨j, hj, hmid, hlt, hout⟩
    exact ⟨j, hj, Nat.le_trans hle hmid, hlt, hout⟩

theorem closes_cons_iff (h : ∀ j, k ≤ j → ¬ raw.Hides j) :
    Closes cs k (raw :: attributes) stop ↔ Closes cs k attributes stop := by
  constructor
  · rintro ⟨j, hj, hle, hlt, hout⟩
    exact ⟨j, hj, hle, hlt, (List.forall_mem_cons.mp hout).2⟩
  · rintro ⟨j, hj, hle, hlt, hout⟩
    exact ⟨j, hj, hle, hlt, List.forall_mem_cons.mpr ⟨h j hle, hout⟩⟩

end

section

variable {cs : List Char} {c : Cursor} (h : c.In cs) {attributes : List RawAttribute} {stop : Nat}

include h

theorem hides_quotedValue {quote : Char} {rest : List Char} (hrest : c.rest = quote :: rest)
    (hquote : quote ≠ '>') {j : Nat} (hj : Text.StandsAt cs j ['>']) (hle : c.offset ≤ j)
    (hlt : j < (quotedValue quote c).next.offset) :
    (quotedValue quote c).value.span.start ≤ j ∧ j < (quotedValue quote c).value.span.stop := by
  have hopening : c.Past [quote] (c.skip 1) := Cursor.past_skip_length hrest
  have hclosing := ((c.skip 1).skipWhile (· ≠ quote)).past_skip 1
  constructor
  · refine Nat.le_of_not_lt fun hbefore => ?_
    have hmem := (hopening.cuts h).mem hj hle hbefore
    exact hquote (List.mem_singleton.mp hmem).symm
  · refine Nat.lt_of_not_le fun hafter => ?_
    have hmem := (hclosing.cuts ((h.skip 1).skipWhile _)).mem hj hafter hlt
    rw [List.take_one, Option.mem_toList] at hmem
    have hstop := ((c.skip 1).isRun (· ≠ quote)).stop _ hmem
    rw [decide_eq_false_iff_not, not_not] at hstop
    exact hquote hstop.symm

theorem hides_valueAt {j : Nat} (hj : Text.StandsAt cs j ['>']) (hle : c.offset ≤ j)
    (hlt : j < (valueAt c).next.offset) :
    (valueAt c).value.span.start ≤ j ∧ j < (valueAt c).value.span.stop := by
  unfold valueAt at hlt ⊢
  split at hlt
  · next hhead =>
    obtain ⟨rest, hrest⟩ := List.head?_eq_some_iff.mp hhead
    exact hides_quotedValue h hrest (by decide) hj hle hlt
  · next hhead =>
    obtain ⟨rest, hrest⟩ := List.head?_eq_some_iff.mp hhead
    exact hides_quotedValue h hrest (by decide) hj hle hlt
  · exact ⟨hle, hlt⟩

/-- Only a value of an attribute can have a `>`. -/
theorem not_closes_attributeAt {x : Char} {rest : List Char} (hrest : c.rest = x :: rest)
    (hspace : Text.isMarkupSpace x = false) (hclose : x ≠ '>') (hslash : x ≠ '/') :
    ¬ Closes cs c.offset ((attributeAt c).found :: attributes) (attributeAt c).next.offset := by
  obtain ⟨w, hpast, hname⟩ := past_afterName_cons hrest hspace hclose hslash
  have hopen : '>' ∉ w := by
    rcases hname with ⟨-, -, hrun⟩ | ⟨rfl, -⟩
    · exact fun hmem => absurd (hrun.all _ hmem) (by decide)
    · decide
  unfold attributeAt
  simp only
  split
  · next hhead =>
    let equals := (afterName c).skipSpace
    let opening := (equals.skip 1).skipSpace
    obtain ⟨tail, htail⟩ := List.head?_eq_some_iff.mp hhead
    have hin : opening.In cs := ((h.afterName.skipWhile _).skip 1).skipWhile _
    have hgap := ((hpast.trans ((afterName c).past_skipWhile Text.isMarkupSpace)).trans
      (Cursor.past_skip_length (w := ['=']) htail)).trans
        ((equals.skip 1).past_skipWhile Text.isMarkupSpace)
    have hnone : '>' ∉ w ++ (afterName c).run Text.isMarkupSpace ++ ['='] ++
        (equals.skip 1).run Text.isMarkupSpace := by
      have hspaces (d : Cursor) : '>' ∉ d.run Text.isMarkupSpace :=
        fun hmem => absurd ((d.isRun Text.isMarkupSpace).all _ hmem) (by decide)
      simp [hopen, hspaces]
    rw [closes_iff_of_gap (hgap.offset ▸ Nat.le_add_right _ _) (not_closes_of_past hgap h hnone)]
    rintro ⟨j, hj, hle, hlt, hout⟩
    exact hout _ List.mem_cons_self ⟨_, rfl, hides_valueAt hin hj hle hlt⟩
  · exact not_closes_of_past hpast h hopen

theorem closes_skipSpace_iff :
    Closes cs c.offset attributes stop ↔ Closes cs c.skipSpace.offset attributes stop := by
  have hpast := c.past_skipWhile Text.isMarkupSpace
  have hopen : '>' ∉ c.run Text.isMarkupSpace :=
    fun hmem => absurd ((c.isRun Text.isMarkupSpace).all _ hmem) (by decide)
  exact closes_iff_of_gap (Nat.le_add_right _ _) (not_closes_of_past hpast h hopen)

theorem closes_skip_one_iff {x : Char} {rest : List Char} (hrest : c.rest = x :: rest)
    (hx : x ≠ '>') :
    Closes cs c.offset attributes stop ↔ Closes cs (c.skip 1).offset attributes stop := by
  have hpast : c.Past [x] (c.skip 1) := Cursor.past_skip_length hrest
  have hopen : '>' ∉ [x] := fun hmem => hx (List.mem_singleton.mp hmem).symm
  exact closes_iff_of_gap (Nat.le_add_right _ _) (not_closes_of_past hpast h hopen)

theorem closes_of_head {rest : List Char} (hrest : c.rest = '>' :: rest) (hlt : c.offset < stop) :
    Closes cs c.offset [] stop :=
  ⟨c.offset, h.standsAt (show c.rest = ['>'] ++ rest from hrest), Nat.le_refl _, hlt,
    List.forall_mem_nil _⟩

/-- A `>` in no value is read only where it closes the tag. -/
theorem closes_tagBody_iff : Closes cs c.offset (tagBody c).attributes (tagBody c).next.offset ↔
    (tagBody c).ending ≠ .unclosed := by
  fun_induction tagBody c with
  | case1 c d hd =>
    rw [closes_skipSpace_iff h]
    refine iff_of_false ?_ (not_not_intro rfl)
    rintro ⟨j, -, hle, hlt, -⟩
    exact Nat.not_lt.mpr hle hlt
  | case2 c d rest hd =>
    have hin : d.In cs := h.skipWhile _
    rw [closes_skipSpace_iff h]
    refine iff_of_true (closes_of_head hin hd (hin.offset_lt (hin.skip 1) ?_)) (by simp)
    rw [Cursor.length_rest_skip, hd]
    exact Nat.lt_succ_self _
  | case3 c d rest hd =>
    have hin : d.In cs := h.skipWhile _
    have hnext : (d.skip 1).rest = '>' :: rest := by
      rw [Cursor.skip, hd]
      rfl
    rw [closes_skipSpace_iff h, closes_skip_one_iff hin hd (by decide)]
    refine iff_of_true (closes_of_head (hin.skip 1) hnext ((hin.skip 1).offset_lt (hin.skip 2) ?_))
      (by simp)
    rw [Cursor.length_rest_skip, Cursor.length_rest_skip, hd]
    exact Nat.lt_succ_self _
  | case4 c d rest hrest hd ih =>
    have hin : d.In cs := h.skipWhile _
    rw [closes_skipSpace_iff h, closes_skip_one_iff hin hd (by decide)]
    exact ih (hin.skip 1)
  | case5 c d x xs hx hclose hslash hd a body ih =>
    have hin : d.In cs := h.skipWhile _
    have hspace := (c.isRun Text.isMarkupSpace).stop x (by
      change x ∈ d.rest.head?
      rw [hd]
      rfl)
    have hle := hin.offset_add_le (in_attributeAt hin)
      (Nat.le_of_lt (length_rest_attributeAt_lt d (hd ▸ List.cons_ne_nil x xs)))
    have hvalue : ∀ j, a.next.offset ≤ j → ¬ a.found.Hides j := by
      rintro j hj ⟨value, hvalue, -, hlt⟩
      have hpart : value.span ∈ a.found.parts := by
        rw [RawAttribute.parts, hvalue]
        exact List.mem_cons_of_mem _ (List.mem_singleton_self _)
      have hbound := ((attributeAt_reads hin hd hspace hx hslash).1.bounds _ hpart).2.2
      exact Nat.not_lt.mpr (Nat.le_trans hbound hj) hlt
    rw [closes_skipSpace_iff h, closes_iff_of_gap (Nat.le_of_add_right_le hle)
      (not_closes_attributeAt hin hd hspace hx hslash), closes_cons_iff hvalue]
    exact ih (in_attributeAt hin)

end

/-! ## What a step reports -/

theorem Cursor.In.offset_of_nil {cs : List Char} {c : Cursor} (h : c.In cs) (hc : c.rest = []) :
    c.offset = Text.byteLength cs := by
  have hoffset := h.offset_add
  rwa [hc, Text.byteLength_nil, Nat.add_zero] at hoffset

theorem rest_valueAt_of_unclosed {c : Cursor} (h : (valueAt c).unclosed = true) :
    (valueAt c).next.rest = [] := by
  have quoted (q : Char) (hq : (quotedValue q c).unclosed = true) :
      (quotedValue q c).next.rest = [] := by
    have hstop : ((c.skip 1).skipWhile (· ≠ q)).rest = [] := List.isEmpty_iff.mp hq
    change (((c.skip 1).skipWhile (· ≠ q)).skip 1).rest = []
    rw [Cursor.skip, hstop, List.drop_nil]
  unfold valueAt at h ⊢
  split at h
  · exact quoted '"' h
  · exact quoted '\'' h
  · cases h

section

variable {cs : List Char} {c : Cursor} (h : c.In cs)

include h

theorem stop_attributeAt :
    ∀ p ∈ (attributeAt c).problems, (attributeAt c).next.rest = [] ∧
      p.span.stop = Text.byteLength cs := by
  have hopening := ((h.afterName.skipWhile Text.isMarkupSpace).skip 1).skipWhile Text.isMarkupSpace
  unfold attributeAt
  simp only
  split
  · intro p hp
    simp only at hp
    split at hp
    · next hunclosed =>
      obtain rfl := List.mem_singleton.mp hp
      have hrest := rest_valueAt_of_unclosed hunclosed
      exact ⟨hrest, (in_valueAt hopening).offset_of_nil hrest⟩
    · cases hp
  · exact List.forall_mem_nil _

/-- A value that is not closed takes the rest of the markup, so that its tag is not closed. -/
theorem stop_tagBody :
    ∀ p ∈ (tagBody c).problems, (tagBody c).ending = .unclosed ∧
      p.span.stop = Text.byteLength cs := by
  fun_induction tagBody c with
  | case1 c d hd => exact List.forall_mem_nil _
  | case2 c d rest hd => exact List.forall_mem_nil _
  | case3 c d rest hd => exact List.forall_mem_nil _
  | case4 c d rest hrest hd ih => exact ih ((h.skipWhile _).skip 1)
  | case5 c d x xs hx hclose hslash hd a body ih =>
    have hin : d.In cs := h.skipWhile _
    refine List.forall_mem_append.mpr ⟨?_, ih (in_attributeAt hin)⟩
    intro p hp
    obtain ⟨hrest, hstop⟩ := stop_attributeAt hin p hp
    have hbody : tagBody a.next = ⟨[], [], .unclosed, a.next.skipSpace⟩ := tagBody_of_nil (by
      change a.next.rest.dropWhile _ = []
      rw [hrest, List.dropWhile_nil])
    exact ⟨congrArg TagBody.ending hbody, hstop⟩

end

/-- The step reports something exactly if it leaves a token open that is no declaration, and
whatever it leaves open, it has read all of the markup `cs`. -/
structure Step.Reports (cs : List Char) (s : Step) : Prop where
  reported_iff : s.problems ≠ [] ↔ ∃ t, LeftOpen cs s.tokens t ∧ t.kind ≠ .declaration
  stop : ∀ p ∈ s.problems, s.next.rest = [] ∧ p.span.stop = Text.byteLength cs
  declaration {span : Span} (h : LeftOpen cs s.tokens ⟨.declaration, span⟩) :
    s.next.rest = [] ∧ s.problems = []

theorem Step.Reports.single {cs : List Char} {s : Step} {u : Token} (tokens : s.tokens = [u])
    (reported_iff : s.problems ≠ [] ↔ u.Unclosed cs ∧ u.kind ≠ .declaration)
    (stop : ∀ p ∈ s.problems, s.next.rest = [] ∧ p.span.stop = Text.byteLength cs)
    (declaration : u.kind = .declaration → u.Unclosed cs → s.next.rest = []) : s.Reports cs := by
  refine ⟨?_, stop, ?_⟩
  · simp only [tokens, leftOpen_singleton_iff, reported_iff]
    constructor
    · exact fun ⟨hopen, hkind⟩ => ⟨u, ⟨rfl, hopen⟩, hkind⟩
    · rintro ⟨t, ⟨rfl, hopen⟩, hkind⟩
      exact ⟨hopen, hkind⟩
  · intro span hopen
    rw [tokens] at hopen
    obtain ⟨rfl, hopen⟩ := leftOpen_singleton_iff.mp hopen
    refine ⟨declaration rfl hopen, ?_⟩
    by_contra hne
    exact (reported_iff.mp hne).2 rfl

theorem Step.Reports.pair {cs : List Char} {s : Step} {tag body : Token} {name content : String}
    {attributes : List RawAttribute} {w post : List Char} (tokens : s.tokens = [tag, body])
    (kind : tag.kind = .startTag name attributes false) (raw : isRawTextElement name = true)
    (text : body.kind = .text content) (cuts : body.span.Cuts cs w post)
    (reported_iff : s.problems ≠ [] ↔ tag.Unclosed cs ∨ ¬ EndsRawText name post)
    (stop : ∀ p ∈ s.problems, s.next.rest = [] ∧ p.span.stop = Text.byteLength cs) :
    s.Reports cs := by
  have hpair {t : Token} := leftOpen_pair_iff (t := t) kind raw text cuts
  refine ⟨?_, stop, ?_⟩
  · simp only [tokens, hpair, reported_iff]
    constructor
    · rintro (hopen | hopen)
      · exact ⟨tag, Or.inl ⟨rfl, hopen⟩, by simp [kind]⟩
      · exact ⟨body, Or.inr ⟨rfl, hopen⟩, by simp [text]⟩
    · rintro ⟨t, hopen, -⟩
      exact hopen.imp And.right And.right
  · intro span hopen
    rw [tokens, hpair] at hopen
    rcases hopen with ⟨rfl, -⟩ | ⟨rfl, -⟩
    · cases kind
    · cases text

section

variable {cs : List Char} {c : Cursor} (h : c.In cs)

include h

theorem reports_comment (hopening : Opening.of c.rest = .comment) : (comment c).Reports cs := by
  obtain ⟨tail, htail⟩ := Opening.exists_of_comment hopening
  have hmark : c.Past ['<', '!', '-', '-'] (c.skip 4) := Cursor.past_skip_length htail
  unfold comment
  simp only
  split
  · next k hk =>
    have hpast := hmark.trans ((c.skip 4).past_skip (k + 3))
    obtain ⟨body, hbody⟩ := (closedBy_of_suffixIndex? hk).1
    refine .single rfl (iff_of_false (fun hne => hne rfl) ?_) (List.forall_mem_nil _) nofun
    rintro ⟨hopen, -⟩
    exact (hpast.cuts h).exists_iff.mp hopen body (by rw [hbody]; rfl)
  · next hnone =>
    have hpast := hmark.trans (c.skip 4).past_toEnd
    refine .single rfl (iff_of_true (List.cons_ne_nil _ _) ⟨?_, nofun⟩) ?_ nofun
    · refine (hpast.cuts h).exists_iff.mpr fun body hbody => not_infix_of_suffixIndex? hnone ?_
      have hrest : (c.skip 4).rest = body ++ ['-', '-', '>'] := by simpa using hbody
      rw [hrest]
      exact List.infix_append_right
    · exact List.forall_mem_singleton.mpr ⟨rfl, (h.skip 4).toEnd.offset_of_nil rfl⟩

/-- What is read up to the next `>` ends with it, if there is one. -/
theorem unclosed_iff : (∃ w post, (c.spanTo ((c.skipWhile (· ≠ '>')).skip 1)).Cuts cs w post ∧
    ¬ ['>'] <:+ w) ↔ (c.skipWhile (· ≠ '>')).rest = [] := by
  have hpast := (c.past_skipWhile (· ≠ '>')).trans (Cursor.past_skip _ 1)
  have hrun := c.isRun (· ≠ '>')
  refine (hpast.cuts h).exists_iff.trans ?_
  cases hrest : (c.skipWhile (· ≠ '>')).rest with
  | nil =>
    rw [List.take_nil, List.append_nil]
    refine iff_of_true ?_ rfl
    exact fun hsuffix => absurd (hrun.all _ (hsuffix.subset (List.mem_singleton_self _))) (by decide)
  | cons x rest =>
    have hx := hrun.stop x (by rw [hrest]; rfl)
    rw [decide_eq_false_iff_not, not_not] at hx
    rw [hx]
    exact iff_of_false (not_not_intro (List.suffix_append _ _)) (List.cons_ne_nil _ _)

theorem reports_declaration : (declaration c).Reports cs := by
  refine .single rfl (iff_of_false (fun hne => hne rfl) fun hopen => hopen.2 rfl)
    (List.forall_mem_nil _) fun _ hopen => ?_
  rw [declaration, Cursor.skip, (unclosed_iff h).mp hopen, List.drop_nil]

theorem reports_endTag : (endTag c).Reports cs := by
  have hkind {name : String} : TokenKind.endTag name ≠ .declaration := TokenKind.noConfusion
  unfold endTag
  simp only
  by_cases hrest : (c.skipWhile (· ≠ '>')).rest = []
  · have hnext : ((c.skipWhile (· ≠ '>')).skip 1).rest = [] := by
      rw [Cursor.skip, hrest, List.drop_nil]
    rw [if_pos (List.isEmpty_iff.mpr hrest)]
    refine .single rfl (iff_of_true (List.cons_ne_nil _ _) ⟨(unclosed_iff h).mpr hrest, hkind⟩)
      (List.forall_mem_singleton.mpr ⟨hnext, ?_⟩) (absurd · hkind)
    exact ((h.skipWhile _).skip 1).offset_of_nil hnext
  · rw [if_neg (mt List.isEmpty_iff.mp hrest)]
    refine .single rfl (iff_of_false (fun hne => hne rfl) fun hopen => ?_)
      (List.forall_mem_nil _) (absurd · hkind)
    exact hrest ((unclosed_iff h).mp hopen.1)

omit h in
theorem reports_text : (text c).Reports cs :=
  .single rfl (iff_of_false (fun hne => hne rfl) fun hopen => hopen.1) (List.forall_mem_nil _) nofun

/-- The body of a raw text element, and what is reported of it. -/
theorem rawText_reports (name : String) : ∃ content w,
    (rawText name c).tokens = [⟨.text content, c.spanTo (rawText name c).next⟩] ∧
    (c.spanTo (rawText name c).next).Cuts cs w (rawText name c).next.rest ∧
    ((rawText name c).problems ≠ [] ↔ ¬ EndsRawText name (rawText name c).next.rest) ∧
    ∀ p ∈ (rawText name c).problems, (rawText name c).next.rest = [] ∧
      p.span.stop = Text.byteLength cs := by
  unfold rawText
  split
  · next k hk =>
    have hends := Text.startsIgnoringCase_iff.mp (Text.suffixIndex?_eq_some_iff.mp hk).2.1
    refine ⟨_, _, rfl, (c.past_skip k).cuts h, ?_, List.forall_mem_nil _⟩
    exact iff_of_false (fun hne => hne rfl) (not_not_intro hends)
  · refine ⟨_, _, rfl, c.past_toEnd.cuts h, iff_of_true (List.cons_ne_nil _ _) ?_,
      List.forall_mem_singleton.mpr ⟨rfl, h.toEnd.offset_of_nil rfl⟩⟩
    exact fun hends => absurd (List.prefix_nil.mp hends) (List.cons_ne_nil _ _)

theorem unclosed_startTag_iff (name : String) (selfClosing : Bool) {x : Char} {rest : List Char}
    (hrest : c.rest = x :: rest) (hx : x ≠ '>') :
    let body := tagBody ((c.skip 1).skipWhile isStartTagNameChar)
    Token.Unclosed cs ⟨.startTag name body.attributes selfClosing, c.spanTo body.next⟩ ↔
      body.ending = .unclosed := by
  let inner := c.skip 1
  have hgap : c.Past (x :: inner.run isStartTagNameChar) (inner.skipWhile isStartTagNameChar) :=
    (Cursor.past_skip_length (w := [x]) hrest).trans (inner.past_skipWhile _)
  have hopen : '>' ∉ x :: inner.run isStartTagNameChar := by
    rw [List.mem_cons]
    exact not_or_intro hx.symm
      fun hmem => absurd ((inner.isRun isStartTagNameChar).all _ hmem) (by decide)
  refine Iff.trans (not_congr ?_) not_ne_iff
  refine (closes_iff_of_gap ?_ (not_closes_of_past hgap h hopen)).trans
    (closes_tagBody_iff ((h.skip 1).skipWhile _))
  exact hgap.offset ▸ Nat.le_add_right _ _

/-- What is reported of a start tag itself: a value that is not closed, then the tag. -/
theorem tagBody_reports (name : String) (span : Span) (hspan : span.stop = (tagBody c).next.offset) :
    let reported := if (tagBody c).ending = .unclosed then
      (tagBody c).problems ++ [⟨.startTag name, span⟩] else (tagBody c).problems
    (reported ≠ [] ↔ (tagBody c).ending = .unclosed) ∧
      ∀ p ∈ reported, (tagBody c).next.rest = [] ∧ p.span.stop = Text.byteLength cs := by
  have hproblems := stop_tagBody h
  by_cases hending : (tagBody c).ending = .unclosed
  · obtain ⟨_, _, hends⟩ := past_tagBody c
    rw [hending] at hends
    simp only [if_pos hending]
    refine ⟨iff_of_true (by simp) hending, List.forall_mem_append.mpr ⟨?_, ?_⟩⟩
    · exact fun p hp => ⟨hends, (hproblems p hp).2⟩
    · refine List.forall_mem_singleton.mpr ⟨hends, ?_⟩
      rw [hspan]
      exact (in_tagBody h).offset_of_nil hends
  · have hnone : (tagBody c).problems = [] :=
      List.eq_nil_iff_forall_not_mem.mpr fun p hp => hending (hproblems p hp).1
    simp only [if_neg hending, hnone]
    exact ⟨iff_of_false (not_not_intro rfl) hending, List.forall_mem_nil _⟩

theorem reports_startTag (hopening : Opening.of c.rest = .startTag) : (startTag c).Reports cs := by
  obtain ⟨_, _, _, hrest⟩ := Opening.exists_of_startTag hopening
  let after := (c.skip 1).skipWhile isStartTagNameChar
  let name := lowerName ((c.skip 1).run isStartTagNameChar)
  have hafter : after.In cs := (h.skip 1).skipWhile _
  have hunclosed (selfClosing : Bool) :=
    unclosed_startTag_iff h name selfClosing hrest (by decide)
  obtain ⟨hreported, hstop⟩ := tagBody_reports hafter name
    (c.spanTo (tagBody after).next) rfl
  unfold startTag
  simp only [ne_eq, decide_not]
  split
  · next hraw =>
    obtain ⟨hending, hraw⟩ := Bool.and_eq_true_iff.mp hraw
    rw [Bool.not_eq_true'] at hending
    obtain ⟨content, w, htokens, hcuts, hbody, hbodyStop⟩ :=
      rawText_reports (in_tagBody hafter) name
    refine .pair (congrArg (_ :: ·) htokens)
      (congrArg (TokenKind.startTag name (tagBody after).attributes) hending) hraw rfl hcuts ?_ ?_
    · rw [Ne, List.append_eq_nil_iff, not_and_or]
      exact or_congr (hreported.trans (hunclosed false).symm) hbody
    · refine List.forall_mem_append.mpr ⟨?_, hbodyStop⟩
      intro p hp
      obtain ⟨hnil, hp⟩ := hstop p hp
      have hle := length_rest_rawText_le name (tagBody after).next
      rw [hnil] at hle
      exact ⟨List.eq_nil_of_length_eq_zero (Nat.le_zero.mp hle), hp⟩
  · refine .single rfl ?_ hstop nofun
    exact hreported.trans ((hunclosed _).symm.trans ⟨fun hopen => ⟨hopen, nofun⟩, And.left⟩)

theorem reports_step : (step c).Reports cs := by
  unfold step
  split
  · next hopening => exact reports_comment h hopening
  · exact reports_declaration h
  · exact reports_endTag h
  · next hopening => exact reports_startTag h hopening
  · exact reports_text

end

/-! ## All of the markup -/

/-- What is reported of all the markup `cs`, and what of it is left open. -/
structure Lexed.Reports (cs : List Char) (read : Lexed) : Prop where
  reported_iff : read.problems ≠ [] ↔ ∃ t, LeftOpen cs read.tokens t ∧ t.kind ≠ .declaration
  stop : ∀ p ∈ read.problems, p.span.stop = Text.byteLength cs
  declaration {span : Span} (h : LeftOpen cs read.tokens ⟨.declaration, span⟩) : read.problems = []

theorem not_opensRawText_of_getLast? {cs : List Char} {c : Cursor} (h : c.In cs)
    (hc : c.rest ≠ []) : ∀ last ∈ (step c).tokens.getLast?, last.kind.opensRawText = false := by
  rcases step_tokens h hc with ⟨kind, hkind, htokens⟩ | ⟨_, _, _, _, -, -, -, -, -, htokens⟩
  · rw [htokens]
    rintro last ⟨⟩
    exact hkind
  · rw [htokens]
    rintro last ⟨⟩
    rfl

theorem reports_lexed {cs : List Char} {c : Cursor} (h : c.In cs) : (lexed c).Reports cs := by
  induction c using Cursor.stepwise with
  | done c hc =>
    rw [lexed_of_rest_nil hc]
    refine ⟨iff_of_false (fun hne => hne rfl) ?_, List.forall_mem_nil _, fun _ => rfl⟩
    exact fun ⟨_, hopen, _⟩ => not_leftOpen_nil hopen
  | more c hc ih =>
    have hstep := reports_step h
    have hlater := ih (in_step h)
    have happend {t : Token} :
        LeftOpen cs ((step c).tokens ++ (lexed (step c).next).tokens) t ↔
          LeftOpen cs (step c).tokens t ∨ LeftOpen cs (lexed (step c).next).tokens t :=
      leftOpen_append_iff (not_opensRawText_of_getLast? h hc)
    rw [lexed_of_rest_ne_nil hc]
    refine ⟨?_, List.forall_mem_append.mpr ⟨fun p hp => (hstep.stop p hp).2, hlater.stop⟩, ?_⟩
    · rw [Ne, List.append_eq_nil_iff, not_and_or]
      simp only [happend, or_and_right, exists_or]
      exact or_congr hstep.reported_iff hlater.reported_iff
    · intro span hopen
      rcases happend.mp hopen with hopen | hopen
      · obtain ⟨hrest, hnone⟩ := hstep.declaration hopen
        rw [hnone, lexed_of_rest_nil hrest]
        rfl
      · -- a step that reports something leaves no declaration to read
        have hnone : (step c).problems = [] := by
          refine List.eq_nil_iff_forall_not_mem.mpr fun p hp => ?_
          rw [lexed_of_rest_nil (hstep.stop p hp).1] at hopen
          exact not_leftOpen_nil hopen
        rw [hnone, hlater.declaration hopen]
        rfl

/-- Markup is reported as malformed exactly if a token of it is left open that is no declaration.
So what is reported tells whether any token is left open, unless that is a declaration, and it
always goes to the end of the markup. -/
theorem reported_lex_iff (source : String) :
    ((lex source).problems ≠ [] ↔
      ∃ t, LeftOpen source.toList (lex source).tokens t ∧ t.kind ≠ .declaration) ∧
    (((lex source).problems ≠ [] ↔ ∃ t, LeftOpen source.toList (lex source).tokens t) ↔
      ∀ span, ¬ LeftOpen source.toList (lex source).tokens ⟨.declaration, span⟩) ∧
    ∀ p ∈ (lex source).problems, p.span.stop = Text.byteLength source.toList := by
  obtain ⟨hreported, hstop, hdeclaration⟩ := reports_lexed (Cursor.in_start source)
  refine ⟨hreported, ?_, hstop⟩
  constructor
  · intro htells span hopen
    exact htells.mpr ⟨_, hopen⟩ (hdeclaration hopen)
  · intro hnone
    rw [lex_eq_lexed, hreported]
    constructor
    · exact fun ⟨t, hopen, _⟩ => ⟨t, hopen⟩
    · rintro ⟨⟨kind, span⟩, hopen⟩
      refine ⟨_, hopen, ?_⟩
      rintro ⟨⟩
      exact hnone span hopen

example : (lex "<script src=\"x").problems.map (·.defect) =
    [.attribute "src", .startTag "script", .rawText "script"] := by decide +kernel

/-- A document type that nothing closes is not reported. -/
def openDeclaration : String := "<!doctype html"

theorem openDeclaration_unreported :
    LeftOpen openDeclaration.toList (lex openDeclaration).tokens ⟨.declaration, ⟨0, 14⟩⟩ ∧
      (lex openDeclaration).problems = [] := by
  have hlex : lex openDeclaration = ⟨[⟨.declaration, ⟨0, 14⟩⟩], []⟩ := by decide +kernel
  rw [hlex]
  refine ⟨.token (List.mem_singleton_self _) ⟨openDeclaration.toList, [], ⟨[], ?_, rfl, ?_⟩, ?_⟩, rfl⟩
  · rw [List.nil_append, List.append_nil]
  · decide +kernel
  · decide +kernel

end PageLint.Markup
