import Downlevel.Proofs.Locating
import Downlevel.Proofs.Parsed

/-!
# The ranges of what is read

A tree is faithful to a text if every node has a range in it that holds those of its children, one after
another, and in which its own text stands, if it has one (`Tree.Faithful`). The grammar reads parts from
left to right, and what it puts together takes the range of a whole match or goes from the start of one
part to the end of another. So what is read is faithful to the source (`parseRaw_faithful`).
-/

namespace Downlevel

/-- The range of a node holds the text that the node has of its own. -/
def Kind.Spelled {α : Type} (source : List Char) (range : Range) : Kind α → Prop
  | .identifier name => Covers source range name.toList
  | .number raw => Covers source range raw.toList
  | .string raw => Covers source range ('"' :: raw.toList ++ ['"'])
  | .boolean value => Covers source range (if value then "true" else "false").toList
  | .null => Covers source range "null".toList
  | .this => Covers source range "this".toList
  | .declarator name _ => ∃ more, Covers source range (name.toList ++ more)
  | _ => True

/-- The ranges lie one after another in a range, and none of them is empty. -/
structure Range.Parts (range : Range) (parts : List Range) : Prop where
  nonempty : ∀ r ∈ parts, r.start < r.stop
  within : ∀ r ∈ parts, range.start ≤ r.start ∧ r.stop ≤ range.stop
  ordered : parts.Pairwise fun r r' => r.stop ≤ r'.start

/-- The ranges of a tree are those of its parts in the text. Only the root may be empty. -/
inductive Tree.Faithful (source : List Char) : RawTree → Prop
  | node {range : Range} {k : Kind RawTree} (inside : range.In source) (spelled : k.Spelled source range)
    (parts : range.Parts (k.children.map Tree.ann)) (below : ∀ c ∈ k.children, Faithful source c) :
    Faithful source (.node range k)

/-! ## Trees laid out one after another -/

/-- Trees that are faithful to the text and stand in it one after another, between two offsets. -/
structure Laid (source : List Char) (i : Nat) (ts : List RawTree) (j : Nat) : Prop where
  le : i ≤ j
  faithful : ∀ t ∈ ts, t.Faithful source
  nonempty : ∀ t ∈ ts, t.ann.start < t.ann.stop
  within : ∀ t ∈ ts, i ≤ t.ann.start ∧ t.ann.stop ≤ j
  ordered : ts.Pairwise fun t u => t.ann.stop ≤ u.ann.start

/-- If there is a tree, it stands between two offsets. -/
abbrev Lies (source : List Char) (i : Nat) (v : Built) (j : Nat) : Prop :=
  Okay v fun t => Laid source i [t] j

/-- The same of a tree that may be missing altogether. -/
abbrev MayLie (source : List Char) (i : Nat) (v? : Option Built) (j : Nat) : Prop :=
  Okay (Build.maybe v?) fun t? => Laid source i t?.toList j

namespace Laid

variable {source : List Char} {i j l m : Nat} {t : RawTree} {ts us : List RawTree}

theorem nil (h : i ≤ j) : Laid source i [] j :=
  ⟨h, nofun, nofun, nofun, .nil⟩

theorem mono (h : Laid source j ts l) (hij : i ≤ j) (hlm : l ≤ m) : Laid source i ts m where
  le := hij.trans (h.le.trans hlm)
  faithful := h.faithful
  nonempty := h.nonempty
  within t ht := ⟨hij.trans (h.within t ht).1, (h.within t ht).2.trans hlm⟩
  ordered := h.ordered

theorem append (h : Laid source i ts j) (hjl : j ≤ l) (h' : Laid source l us m) :
    Laid source i (ts ++ us) m where
  le := h.le.trans (hjl.trans h'.le)
  faithful := List.forall_mem_append.mpr ⟨h.faithful, h'.faithful⟩
  nonempty := List.forall_mem_append.mpr ⟨h.nonempty, h'.nonempty⟩
  within := List.forall_mem_append.mpr
    ⟨(h.mono le_rfl (hjl.trans h'.le)).within, (h'.mono (h.le.trans hjl) le_rfl).within⟩
  ordered := List.pairwise_append.mpr ⟨h.ordered, h'.ordered, fun t ht u hu =>
    (h.within t ht).2.trans (hjl.trans (h'.within u hu).1)⟩

/-- The first tree, and then the others. -/
theorem cons (h : Laid source i [t] j) (hjl : j ≤ l) (h' : Laid source l us m) :
    Laid source i (t :: us) m :=
  h.append hjl h'

theorem singleton (h : t.Faithful source) (hlt : t.ann.start < t.ann.stop)
    (hstart : i ≤ t.ann.start) (hstop : t.ann.stop ≤ j) : Laid source i [t] j where
  le := hstart.trans (hlt.le.trans hstop)
  faithful := by simpa using h
  nonempty := by simpa using hlt
  within := by simpa using ⟨hstart, hstop⟩
  ordered := List.pairwise_singleton _ _

/-- A single tree, in its own range. -/
theorem own (h : Laid source i [t] j) :
    t.ann.In source ∧ Laid source t.ann.start [t] t.ann.stop ∧ i ≤ t.ann.start ∧ t.ann.stop ≤ j := by
  have ht := List.mem_singleton_self t
  have hfaithful := h.faithful t ht
  have hin : t.ann.In source := by
    cases hfaithful with
    | node inside => exact inside
  exact ⟨hin, .singleton hfaithful (h.nonempty t ht) le_rfl le_rfl, h.within t ht⟩

theorem parts (h : Laid source i ts j) : Range.Parts ⟨i, j⟩ (ts.map Tree.ann) where
  nonempty := List.forall_mem_map.mpr h.nonempty
  within := List.forall_mem_map.mpr h.within
  ordered := List.pairwise_map.mpr h.ordered

/-- A node around trees that are laid out in its range. -/
theorem node {k : Kind RawTree} (hin : Range.In source ⟨i, j⟩) (hlt : i < j)
    (hspelled : k.Spelled source ⟨i, j⟩) (h : Laid source i k.children j) :
    Laid source i [.node ⟨i, j⟩ k] j :=
  .singleton (.node hin hspelled h.parts h.faithful) hlt le_rfl le_rfl

/-- A node that begins with a tree and goes on to the end of a range. -/
theorem join {range : Range} {k : Kind RawTree} (h : Laid source i [t] j) (hj : j ≤ range.start)
    (hin : range.In source) (hus : Laid source range.start us range.stop) (hk : k.children = t :: us)
    (hspelled : k.Spelled source (t.ann.to range)) :
    Laid source i [.node (t.ann.to range) k] range.stop := by
  obtain ⟨hown, ht, hstart, hstop⟩ := h.own
  have hlt : t.ann.start < range.stop :=
    (ht.nonempty t (List.mem_singleton_self t)).trans_le (hstop.trans (hj.trans hin.le))
  have hall : Laid source t.ann.start k.children range.stop :=
    hk ▸ ht.cons (hstop.trans hj) hus
  have hrange : Range.In source (t.ann.to range) := ⟨hown.start, hin.stop, hlt.le⟩
  exact (node hrange hlt hspelled hall).mono hstart le_rfl

end Laid

theorem Lies.mono {source : List Char} {i j l m : Nat} {v : Built} (h : Lies source j v l) (hij : i ≤ j)
    (hlm : l ≤ m) : Lies source i v m :=
  Okay.mono h fun _ ht => ht.mono hij hlm

/-! ## Trees put together from what is laid out -/

/-- A token with the range of what has been read, in which its text stands as that of a leaf. -/
structure Token.Placed (source : List Char) (kind : String → Kind RawTree) (i : Nat) (token : Token)
    (j : Nat) : Prop where
  range_eq : token.range = ⟨i, j⟩
  inside : Range.In source ⟨i, j⟩
  lt : i < j
  spelled : (kind token.text).Spelled source ⟨i, j⟩

structure ParamText.Placed (source : List Char) (i : Nat) (p : ParamText) (j : Nat) : Prop where
  inside : p.range.In source
  lt : p.range.start < p.range.stop
  within : i ≤ p.range.start ∧ p.range.stop ≤ j
  fallback : MayLie source p.range.start p.fallback p.range.stop

theorem ParamText.Placed.mono {source : List Char} {i j l : Nat} {p : ParamText}
    (h : p.Placed source j l) (hij : i ≤ j) : p.Placed source i l :=
  ⟨h.inside, h.lt, ⟨hij.trans h.within.1, h.within.2⟩, h.fallback⟩

/-- The range of a suffix, and what it holds. -/
def Suffix.Placed (source : List Char) (i : Nat) (s : Suffix) (j : Nat) : Prop :=
  Range.In source ⟨i, j⟩ ∧ match s with
    | call range arguments => range = ⟨i, j⟩ ∧ Okay (Build.all arguments) fun ts => Laid source i ts j
    | member range _ => range = ⟨i, j⟩
    | index range key => range = ⟨i, j⟩ ∧ Lies source i key j

def TemplatePart.Placed (source : List Char) (i : Nat) (part : TemplatePart) (j : Nat) : Prop :=
  match part with
  | chars _ => True
  | substitution v => Lies source i v j

namespace Build

variable {source : List Char} {i j l m : Nat}

theorem laid_all {vs : List Built} (h : Series (Lies source) i vs j) :
    Okay (all vs) fun ts => Laid source i ts j := by
  induction h with
  | nil hij => exact .pure (.nil hij)
  | cons hij _ head _ ih =>
    rw [all, List.mapM_cons]
    exact head.bind fun t ht => ih.bind fun ts hts => .pure ((ht.mono hij le_rfl).cons le_rfl hts)

theorem lies_declarator {name : Token} {init : Option Built} (hname : name.Placed source .identifier i j)
    (hin : Range.In source ⟨i, l⟩) (hlt : i < l) (h : MayLie source j init l) :
    Lies source i (declarator name init ⟨i, l⟩) l :=
  h.bind fun _ ht => .pure (.node hin hlt (Covers.extend hname.spelled hin.stop ht.le)
    (ht.mono hname.lt.le le_rfl))

theorem laid_params {ps : List ParamText} (h : Series (ParamText.Placed source) i ps j) :
    Okay (params ps) fun ts => Laid source i ts j := by
  induction h with
  | nil hij => exact .pure (.nil hij)
  | @cons i j l m p ps hij hjl head _ ih =>
    rw [params]
    refine head.fallback.bind fun fallback hfallback => ?_
    dsimp only
    split
    · rintro _ ⟨⟩
    split
    · rintro _ ⟨⟩
    refine ih.bind fun ts hts => .pure (Laid.cons (j := l) ?_ le_rfl hts)
    have hparam := Laid.node (k := .param p.name fallback p.rest) head.inside head.lt trivial hfallback
    exact hparam.mono (hij.trans head.within.1) head.within.2

theorem lies_binary {left : Built} {step : OperatorText × Built} (hleft : Lies source i left j)
    (hjl : j ≤ l) (hright : Lies source l step.2 m) : Lies source i (binary left step) m := by
  refine hleft.bind fun left hleft => Okay.bind (fun _ _ => trivial) fun op _ =>
    hright.bind fun right hright => .pure ?_
  obtain ⟨hin, hown, hstart, hstop⟩ := hright.own
  have hjoin := hleft.join (k := .binary op left right) (hjl.trans hstart) hin hown rfl trivial
  exact hjoin.mono le_rfl hstop

theorem lies_binaryChain {first : Built} {steps : List (OperatorText × Built)}
    (hfirst : Lies source i first j) (hjl : j ≤ l)
    (hsteps : Series (fun i step j => Lies source i step.2 j) l steps m) :
    Lies source i (binaryChain first steps) m := by
  unfold binaryChain
  induction hsteps generalizing first j with
  | nil hlm => exact hfirst.mono le_rfl (hjl.trans hlm)
  | cons hlj _ head _ ih => exact ih (lies_binary hfirst (hjl.trans hlj) head) le_rfl

theorem lies_suffixed {base : Built} {suffix : Suffix} (hbase : Lies source i base j) (hjl : j ≤ l)
    (hsuffix : suffix.Placed source l m) : Lies source i (suffixed base suffix) m := by
  obtain ⟨hin, hsuffix⟩ := hsuffix
  refine hbase.bind fun base hbase => ?_
  cases suffix with
  | call range arguments =>
    obtain ⟨rfl, harguments⟩ := hsuffix
    exact harguments.bind fun ts hts => .pure (hbase.join (k := .call base ts) hjl hin hts rfl trivial)
  | member range name =>
    obtain rfl := hsuffix
    exact .pure (hbase.join (k := .member base name) hjl hin (.nil hin.le) rfl trivial)
  | index range key =>
    obtain ⟨rfl, hkey⟩ := hsuffix
    exact hkey.bind fun key hkey => .pure (hbase.join (k := .index base key) hjl hin hkey rfl trivial)

theorem lies_postfixChain {first : Built} {suffixes : List Suffix} (hfirst : Lies source i first j)
    (hjl : j ≤ l) (hsuffixes : Series (Suffix.Placed source) l suffixes m) :
    Lies source i (postfixChain first suffixes) m := by
  unfold postfixChain
  induction hsuffixes generalizing first j with
  | nil hlm => exact hfirst.mono le_rfl (hjl.trans hlm)
  | cons hlj _ head _ ih => exact ih (lies_suffixed hfirst (hjl.trans hlj) head) le_rfl

theorem laid_templateParts {text : String} {parts : List TemplatePart}
    (h : Series (TemplatePart.Placed source) i parts j) :
    Okay (templateParts text parts) fun r => Laid source i r.2 j := by
  induction h generalizing text with
  | nil hij => exact .pure (.nil hij)
  | @cons i j l m part parts hij hjl head _ ih =>
    cases part with
    | chars more => exact ih.mono fun r hr => hr.mono (hij.trans hjl) le_rfl
    | substitution value =>
      exact head.bind fun value hvalue => ih.bind fun r hr =>
        .pure ((hvalue.mono hij le_rfl).cons le_rfl hr)

end Build

/-! ## The rules -/

theorem Lexeme.take_of_keyword {w : String} {cs : List Char} {n : Nat} (h : keyword w cs = some n) :
    cs.take n = w.toList := by
  unfold keyword at h
  split_ifs at h with hword
  obtain rfl := Option.some.inj h
  obtain ⟨rest, hrest⟩ := List.takeWhile_prefix (l := cs) isNameChar
  rw [← hrest, show cs.takeWhile isNameChar = w.toList from hword, ← String.length_toList, List.take_left]

theorem Lexeme.take_of_boolean {cs : List Char} {n : Nat}
    (h : (keyword "true" cs <|> keyword "false" cs) = some n) :
    cs.take n = "true".toList ∨ cs.take n = "false".toList := by
  cases htrue : keyword "true" cs with
  | none =>
    rw [htrue] at h
    exact .inr (take_of_keyword h)
  | some m =>
    rw [htrue] at h
    cases h
    exact .inl (take_of_keyword htrue)

/-- Where the value of a rule stands, if the rule has been read from one offset to another. -/
def Rule.Placed (source : List Char) : (r : Rule) → Nat → r.Value → Nat → Prop
  | .number, i, v, j => Token.Placed source .number i v j
  | .string, i, v, j => Token.Placed source .string i v j
  | .boolean, i, v, j => Token.Placed source (fun text => .boolean (text = "true")) i v j
  | .null, i, v, j => Token.Placed source (fun _ => .null) i v j
  | .this, i, v, j => Token.Placed source (fun _ => .this) i v j
  | .identifier, i, v, j => Token.Placed source .identifier i v j
  | .params, i, v, j | .arrowParams, i, v, j => Okay v fun ts => Laid source i ts j
  | .param, i, v, j => v.Placed source i j
  | .callArguments, i, v, j | .memberSuffix, i, v, j | .indexSuffix, i, v, j => v.Placed source i j
  | .templateChars, i, v, j | .templateSubstitution, i, v, j => v.Placed source i j
  | .program, _, v, _ => Okay v fun t => t.Faithful source
  | .declaration, i, v, j | .declarator, i, v, j | .functionDeclaration, i, v, j
  | .returnStatement, i, v, j | .ifStatement, i, v, j | .whileStatement, i, v, j | .block, i, v, j
  | .emptyStatement, i, v, j | .expressionStatement, i, v, j | .expression, i, v, j
  | .assignment, i, v, j | .arrowFunction, i, v, j | .arrowBody, i, v, j | .logicalOr, i, v, j
  | .logicalAnd, i, v, j | .equality, i, v, j | .relational, i, v, j | .additive, i, v, j
  | .multiplicative, i, v, j | .exponent, i, v, j | .unary, i, v, j | .postfixChain, i, v, j
  | .functionExpression, i, v, j | .array, i, v, j | .object, i, v, j | .methodProperty, i, v, j
  | .keyedProperty, i, v, j | .shorthandProperty, i, v, j | .template, i, v, j => Lies source i v j
  | _, i, _, j => i ≤ j

namespace Phrase

variable {source : List Char} {i : Nat}

theorem locates_statement : statement.Locates source (Rule.Placed source) i (Lies source i) :=
  ⟨fun _ _ h => h, fun _ _ h => h, fun _ _ h => h, fun _ _ h => h, fun _ _ h => h, fun _ _ h => h,
    fun _ _ h => h, fun _ _ h => h⟩

theorem locates_property : property.Locates source (Rule.Placed source) i (Lies source i) :=
  ⟨fun _ _ h => h, fun _ _ h => h, fun _ _ h => h⟩

theorem lies_leaf {kind : String → Kind RawTree} {token : Token} {j : Nat}
    (h : token.Placed source kind i j) (hkind : (kind token.text).children = []) :
    Lies source i (Build.node token.range (kind token.text)) j := by
  rw [h.range_eq]
  exact .pure (.node h.inside h.lt h.spelled (hkind ▸ .nil h.lt.le))

theorem locates_primary : primary.Locates source (Rule.Placed source) i (Lies source i) := by
  refine ⟨fun _ _ h => h, ?_, fun _ _ h => h, fun _ _ h => lies_leaf h rfl, fun _ _ h => lies_leaf h rfl,
    fun _ _ h => lies_leaf h rfl, fun _ _ h => lies_leaf h rfl, fun _ _ h => lies_leaf h rfl,
    fun _ _ h => h, fun _ _ h => h, fun _ _ h => lies_leaf h rfl⟩
  -- What stands in parentheses keeps its own range.
  intro j _ k hij hjk v l hv m _ hlm n hclose
  exact Lies.mono hv (hij.trans hjk) (hlm.trans hclose.le)

theorem locates_optional {p : Phrase Built}
    (h : p.Locates source (Rule.Placed source) i (Lies source i)) :
    (Peg.optional p).Locates source (Rule.Placed source) i (MayLie source i) :=
  ⟨.pure (.nil le_rfl), h.mono fun _ _ hv => hv.bind fun _ ht => .pure ht⟩

theorem locates_init : init.Locates source (Rule.Placed source) i (Lies source i) :=
  fun _ _ _ hij hjk _ _ hv => Lies.mono hv (hij.trans hjk) le_rfl

theorem locates_chain {operand : Phrase Built} {op : Phrase OperatorText}
    (h : ∀ i, operand.Locates source (Rule.Placed source) i (Lies source i))
    (hop : ∀ i, op.Locates source (Rule.Placed source) i fun _ _ => True) :
    (chain operand op).Locates source (Rule.Placed source) i (Lies source i) := by
  refine (h i).mono fun first j hfirst k _ hjk => ⟨fun i step j => Lies source i step.2 j, fun l => ?_,
    fun steps m hsteps => Build.lies_binaryChain hfirst hjk hsteps⟩
  exact (hop l).mono fun text m _ n hlm hmn => (h n).mono fun v o hv => Lies.mono hv (hlm.trans hmn) le_rfl

/-- A list of one or more parts separated by commas. -/
theorem locates_commaList {α : Type} {p : Phrase α} {A : Nat → α → Nat → Prop} {Q : List α → Nat → Prop}
    (h : ∀ i, p.Locates source (Rule.Placed source) i (A i))
    (hA : ∀ {i j a k}, i ≤ j → A j a k → A i a k)
    (hQ : ∀ as j, as ≠ [] → Series A i as j → Q as j) :
    (Peg.commaList p).Locates source (Rule.Placed source) i Q := by
  refine (h i).mono fun a j ha k hij hjk => ⟨A, fun l => ?_, fun as m has => ?_⟩
  · exact fun m _ n hlm hmn => (h n).mono fun b o hb => hA (hlm.trans hmn) hb
  · exact hQ _ m (List.cons_ne_nil a as) (.cons le_rfl hij ha (has.mono hjk le_rfl))

/-- The same with a comma at the end, or without one. -/
theorem locates_closedList {p : Phrase Built}
    (h : ∀ i, p.Locates source (Rule.Placed source) i (Lies source i)) :
    (Peg.commaList p <* Peg.optional (Peg.lit ",")).Locates source (Rule.Placed source) i
      (Series (Lies source) i) := by
  refine locates_commaList h (fun hij h => Lies.mono h hij le_rfl) fun vs j _ hvs k _ hjk => ⟨?_, ?_⟩
  · exact hvs.mono le_rfl hjk
  · exact fun l hcomma => hvs.mono le_rfl (hjk.trans hcomma.le)

/-- A token takes up what is read of it. -/
theorem locates_token {scan : List Char → Option Nat} {text : List Char → List Char}
    {kind : String → Kind RawTree} {empty : Bool} (hempty : empty = false)
    (h : ∀ {cs n range}, scan cs = some n → Covers source range (cs.take n) →
      (kind (String.ofList (text (cs.take n)))).Spelled source range) :
    (token scan text).Locates source (Rule.Placed source) i fun v j =>
      Range.In source ⟨i, j⟩ → (empty = false → i < j) → Token.Placed source kind i v j :=
  fun _ _ _ hn hcovers hin hlt => ⟨rfl, hin, hlt hempty, h hn hcovers⟩

/-- The body of a rule yields values in their places. -/
theorem locates_body (r : Rule) (i : Nat) :
    (body r).Locates source (Rule.Placed source) i fun v j =>
      Range.In source ⟨i, j⟩ → (r.mayBeEmpty = false → i < j) → r.Placed source i v j := by
  cases r with
  | endOfInput | varKeyword | letKeyword | constKeyword | functionKeyword | returnKeyword
  | ifKeyword | elseKeyword | whileKeyword | restMarker | propertyName | declarationKeyword
  | orOperator | andOperator | powerOperator | equalityOperator | additiveOperator
  | relationalOperator | multiplicativeOperator | unaryOperator | propertyKey =>
    exact .of_forall fun _ _ hin _ => hin.le
  -- Statements
  | program =>
    intro k _ hik
    refine ⟨Lies source, fun _ => locates_statement, fun vs l hvs m _ hlm _ n hmn hin _ => ?_⟩
    refine (Build.laid_all hvs).bind fun ts hts => .pure ?_
    have hlaid : Laid source i ts n := hts.mono hik (hlm.trans hmn)
    exact .node hin trivial hlaid.parts hlaid.faithful
  | declaration =>
    intro _ j _ k hij hjk
    refine locates_commaList (fun _ _ _ h => h) (fun hij h => Lies.mono h hij le_rfl) ?_
    intro vs l _ hvs m _ hlm n hend hin hlt
    refine (Build.laid_all hvs).bind fun ts hts => .pure (.node hin (hlt rfl) trivial ?_)
    exact Laid.mono hts (hij.trans hjk) (hlm.trans hend.le)
  | declarator =>
    intro name j hname k hij hjk
    refine (locates_optional locates_init).mono fun init l hinit hin hlt => ?_
    exact Build.lies_declarator hname hin (hlt rfl) (hinit.mono fun _ ht => ht.mono hjk le_rfl)
  | functionDeclaration =>
    intro _ j _ k hij hjk name l hname m hil hlm ps n hps o _ hno body p hbody hin hlt
    refine hps.bind fun ps hps => hbody.bind fun body hbody => .pure (.node hin (hlt rfl) trivial ?_)
    exact (hps.append hno hbody).mono (hil.trans hlm) le_rfl
  | params =>
    intro j _ k hij hjk
    refine ⟨fun m _ hkm n hclose hin _ => .pure (.nil hin.le), ?_⟩
    refine locates_commaList (fun _ _ _ h => h) (fun hij h => h.mono hij) ?_
    intro ps l _ hps m _ hlm n hclose hin _
    exact (Build.laid_params hps).mono fun ts hts => hts.mono (hij.trans hjk) (hlm.trans hclose.le)
  | param =>
    have hname (rest : Option Unit) (k : Nat) : (rule .identifier).Locates source (Rule.Placed source) k
        fun name l => ∀ m, i ≤ l → l ≤ m →
          (Peg.optional init).Locates source (Rule.Placed source) m fun fallback n =>
            Range.In source ⟨i, n⟩ → (Rule.param.mayBeEmpty = false → i < n) →
              ParamText.Placed source i ⟨⟨i, n⟩, rest.isSome, name.text, fallback⟩ n := by
      intro name l _ m hil hlm
      refine (locates_optional locates_init).mono fun fallback n hfallback hin hlt => ?_
      exact ⟨hin, hlt rfl, ⟨le_rfl, le_rfl⟩, hfallback.mono fun _ ht => ht.mono (hil.trans hlm) le_rfl⟩
    exact ⟨fun k _ _ => hname none k, fun rest _ _ k _ _ => hname (some rest) k⟩
  | returnStatement =>
    intro _ j _ k hij hjk
    refine (locates_optional (p := rule .expression) fun _ _ h => h).mono ?_
    intro argument l hargument m _ hlm n hend hin hlt
    refine hargument.bind fun t? ht => .pure (.node hin (hlt rfl) trivial ?_)
    exact Laid.mono ht (hij.trans hjk) (hlm.trans hend.le)
  | ifStatement =>
    intro _ j _ k hij hjk l _ m hil hlm test n htest o hin' hno p hclose q hip hpq
    refine locates_statement.mono fun consequent t hconsequent u hit htu => ?_
    refine (locates_optional (p := rule .elseKeyword *> statement) ?_).mono ?_
    · exact fun _ _ _ _ huv hvw => locates_statement.mono fun _ _ h => Lies.mono h (huv.trans hvw) le_rfl
    · intro alternate w halternate hin hlt
      refine htest.bind fun test htest => hconsequent.bind fun consequent hconsequent =>
        halternate.bind fun alternate halternate => .pure (.node hin (hlt rfl) trivial ?_)
      have hbranches := hconsequent.cons htu halternate
      exact (htest.cons (hno.trans (hclose.le.trans hpq)) hbranches).mono (hil.trans hlm) le_rfl
  | whileStatement =>
    intro _ j _ k hij hjk l _ m hil hlm test n htest o _ hno p hclose q hip hpq
    refine locates_statement.mono fun body t hbody hin hlt => ?_
    refine htest.bind fun test htest => hbody.bind fun body hbody => .pure (.node hin (hlt rfl) trivial ?_)
    exact (htest.cons (hno.trans (hclose.le.trans hpq)) hbody).mono (hil.trans hlm) le_rfl
  | block =>
    intro j _ k hij hjk
    refine ⟨Lies source, fun _ => locates_statement, fun vs l hvs m _ hlm n hclose hin hlt => ?_⟩
    refine (Build.laid_all hvs).bind fun ts hts => .pure (.node hin (hlt rfl) trivial ?_)
    exact Laid.mono hts (hij.trans hjk) (hlm.trans hclose.le)
  | emptyStatement => exact fun j _ hin hlt => .pure (.node hin (hlt rfl) trivial (.nil hin.le))
  | expressionStatement =>
    intro k _ hik v l hv m _ hlm n hend hin hlt
    refine hv.bind fun t ht => .pure (.node hin (hlt rfl) trivial ?_)
    exact Laid.mono ht hik (hlm.trans hend.le)
  -- Expressions
  | expression => exact fun _ _ h _ _ => h
  | assignment =>
    refine ⟨fun _ _ h _ _ => h, fun target j htarget k hij hjk => ⟨fun hin _ => ?_, ?_⟩⟩
    · exact Lies.mono htarget le_rfl hjk
    · intro l _ m hkl hlm n hkm hmn value o hvalue hin hlt
      refine htarget.bind fun target htarget => ?_
      dsimp only
      split
      · rintro _ ⟨⟩
      refine Okay.bind hvalue fun value hvalue => .pure (.node hin (hlt rfl) trivial ?_)
      exact htarget.cons (by omega) hvalue
  | arrowFunction =>
    intro ps j hps k hij hjk l hsign m hil hlm body n hbody hin hlt
    refine hps.bind fun ps hps => hbody.bind fun body hbody => .pure (.node hin (hlt rfl) trivial ?_)
    exact hps.append (hjk.trans (hsign.le.trans hlm)) hbody
  | arrowParams =>
    refine ⟨fun name j hname hin hlt => .pure ?_, fun _ _ h _ _ => h⟩
    have hparam := Laid.node (k := .param name.text none false) hin (hlt rfl) trivial (.nil hin.le)
    rwa [← hname.range_eq] at hparam
  | arrowBody => exact ⟨fun _ _ h _ _ => h, fun _ _ h _ _ => h⟩
  | logicalOr | logicalAnd | equality | relational | additive | multiplicative =>
    exact Peg.Locates.mono (p := chain _ _)
      (locates_chain (fun _ _ _ h => h) fun _ => .of_forall fun _ _ => trivial) fun _ _ h _ _ => h
  | exponent =>
    intro base j hbase k hij hjk
    refine ⟨fun hin _ => Lies.mono hbase le_rfl hjk, fun _ l _ m hkl hlm power n hpower hin hlt => ?_⟩
    refine hbase.bind fun base hbase => Okay.bind hpower fun power hpower =>
      .pure (.node hin (hlt rfl) trivial ?_)
    exact hbase.cons (by omega) hpower
  | unary =>
    refine ⟨fun _ j _ k hij hjk v l hv hin hlt => ?_, fun _ _ h _ _ => h⟩
    refine hv.bind fun t ht => .pure (.node hin (hlt rfl) trivial ?_)
    exact ht.mono (hij.trans hjk) le_rfl
  | postfixChain =>
    refine locates_primary.mono fun first j hfirst k hij hjk => ⟨Suffix.Placed source, ?_, ?_⟩
    · exact fun _ => ⟨fun _ _ h => h, fun _ _ h => h, fun _ _ h => h⟩
    · exact fun suffixes l hsuffixes _ _ => Build.lies_postfixChain hfirst hjk hsuffixes
  | callArguments =>
    intro j _ k hij hjk
    refine ⟨fun m _ hkm n hclose hin _ => ⟨hin, rfl, .pure (.nil hin.le)⟩, ?_⟩
    refine locates_commaList (fun _ _ _ h => h) (fun hij h => Lies.mono h hij le_rfl) ?_
    intro vs l _ hvs m _ hlm n hclose hin _
    exact ⟨hin, rfl, (Build.laid_all hvs).mono fun ts hts =>
      hts.mono (hij.trans hjk) (hlm.trans hclose.le)⟩
  | memberSuffix => exact fun _ _ _ _ _ _ _ _ hin _ => ⟨hin, rfl⟩
  | indexSuffix =>
    intro j _ k hij hjk key l hkey m _ hlm n hclose hin _
    exact ⟨hin, rfl, Lies.mono hkey (hij.trans hjk) (hlm.trans hclose.le)⟩
  | functionExpression =>
    intro _ j _ k hij hjk
    have hsignature (name : Option Token) (l m : Nat) (hil : i ≤ l) (hlm : l ≤ m) :
        (rule .params).Locates source (Rule.Placed source) m fun ps n => ∀ o, i ≤ n → n ≤ o →
          (rule .block).Locates source (Rule.Placed source) o fun body p => Range.In source ⟨i, p⟩ →
            (Rule.functionExpression.mayBeEmpty = false → i < p) →
              Lies source i (Build.functionExpression name ps body ⟨i, p⟩) p := by
      intro ps n hps o _ hno body p hbody hin hlt
      refine hps.bind fun ps hps => hbody.bind fun body hbody => .pure (.node hin (hlt rfl) trivial ?_)
      exact (hps.append hno hbody).mono (hil.trans hlm) le_rfl
    exact ⟨fun m hil hlm => hsignature none k m hil hlm,
      fun name l _ m hil hlm => hsignature (some name) l m hil hlm⟩
  | array =>
    intro j _ k hij hjk
    refine ⟨fun m _ hkm n hclose hin hlt => .pure (.node hin (hlt rfl) trivial (.nil hin.le)), ?_⟩
    refine (locates_closedList (p := rule .expression) fun _ _ _ h => h).mono ?_
    intro vs l hvs m _ hlm n hclose hin hlt
    refine (Build.laid_all hvs).bind fun ts hts => .pure (.node hin (hlt rfl) trivial ?_)
    exact Laid.mono hts (hij.trans hjk) (hlm.trans hclose.le)
  | object =>
    intro j _ k hij hjk
    refine ⟨fun m _ hkm n hclose hin hlt => .pure (.node hin (hlt rfl) trivial (.nil hin.le)), ?_⟩
    refine (locates_closedList fun _ => locates_property).mono ?_
    intro vs l hvs m _ hlm n hclose hin hlt
    refine (Build.laid_all hvs).bind fun ts hts => .pure (.node hin (hlt rfl) trivial ?_)
    exact Laid.mono hts (hij.trans hjk) (hlm.trans hclose.le)
  | methodProperty =>
    intro key j _ k hij hjk ps l hps m _ hlm body n hbody hin hlt
    refine hps.bind fun ps hps => hbody.bind fun body hbody => .pure ?_
    have hfunction := Laid.node (k := .functionExpression none ps body) hin (hlt rfl) trivial
      ((hps.append hlm hbody).mono (hij.trans hjk) le_rfl)
    exact .node hin (hlt rfl) trivial hfunction
  | keyedProperty =>
    intro key j _ k hij hjk l _ m hil hlm v n hv hin hlt
    refine hv.bind fun t ht => .pure (.node hin (hlt rfl) trivial ?_)
    exact ht.mono (by omega) le_rfl
  | shorthandProperty =>
    intro name j hname hin hlt
    have hvalue := Laid.node (k := .identifier name.text) hin (hlt rfl) hname.spelled (.nil hin.le)
    exact .pure (.node hin (hlt rfl) trivial hvalue)
  -- Words and literals
  | number => exact locates_token rfl fun _ hcovers => by simpa [Kind.Spelled] using hcovers
  | string =>
    refine locates_token rfl fun hn hcovers => ?_
    obtain ⟨raw, htake, -⟩ := Lexeme.string_eq_some hn
    rw [htake] at hcovers ⊢
    simpa [Kind.Spelled] using hcovers
  | boolean =>
    refine locates_token rfl fun hn hcovers => ?_
    rcases Lexeme.take_of_boolean hn with htake | htake <;> rw [htake] at hcovers ⊢ <;> exact hcovers
  | null =>
    refine locates_token rfl fun hn hcovers => ?_
    rwa [Lexeme.take_of_keyword hn] at hcovers
  | this =>
    refine locates_token rfl fun hn hcovers => ?_
    rwa [Lexeme.take_of_keyword hn] at hcovers
  | identifier => exact locates_token rfl fun _ hcovers => by simpa [Kind.Spelled] using hcovers
  | template =>
    intro j _ k hij hjk
    refine ⟨TemplatePart.Placed source, fun _ => ⟨fun _ _ h => h, fun _ _ h => h⟩, ?_⟩
    intro parts l hparts m _ hlm n hclose hin hlt
    refine (Build.laid_templateParts hparts).bind ?_
    rintro ⟨texts, values⟩ hvalues
    exact .pure (.node hin (hlt rfl) trivial (hvalues.mono (hij.trans hjk) (hlm.trans hclose.le)))
  | templateChars => exact fun _ _ _ _ _ _ _ => trivial
  | templateSubstitution =>
    intro j _ k hij hjk v l hv m _ hlm n hclose _ _
    exact Lies.mono hv (hij.trans hjk) (hlm.trans hclose.le)

end Phrase

open Grammar.Grounded (recognizeWithin recognizeWithin_reaches)

/-- Every value that a rule yields stands where it has been read. -/
theorem placed_recognizeWithin {source : List Char} :
    ∀ depth r c v c', c.In source → recognizeWithin echoGrammar depth r c = some (v, c') →
      r.Placed source c.offset v c'.offset
  | 0, _, _, _, _, _, h => nomatch h
  | depth + 1, r, c, v, c', hc, h => by
    have hreaches := recognizeWithin_reaches echoGrammar (depth + 1) r c v c' h
    refine Peg.Locates.sound (recognizeWithin_reaches echoGrammar depth)
      (placed_recognizeWithin depth) (Phrase.locates_body r c.offset) hc h (hc.range_in hreaches) ?_
    exact fun hr => hreaches.offset_lt (echoGrounded.recognizeWithin_length_lt _ r c v c' hr h)

/-- What is read as a program is faithful to the text. -/
theorem parseRaw_faithful {source : List Char} {raw : RawTree} (h : parseRaw source = .ok raw) :
    raw.Faithful source := by
  have hmatched := matchProgram_matched source
  unfold parseRaw at h
  split at h <;> cases h
  rename_i c tracker hmatch
  rw [hmatch, Phrase.eval_rule] at hmatched
  have hrecognize : echoGrounded.recognize .program ⟨source, 0⟩ = some (.ok raw, c) := by
    rw [echoGrounded.recognize_eq]
    exact hmatched.symm
  have hplaced := placed_recognizeWithin _ .program _ _ _ (Cursor.reaches_refl ⟨source, 0⟩) hrecognize
  exact hplaced raw rfl

end Downlevel
