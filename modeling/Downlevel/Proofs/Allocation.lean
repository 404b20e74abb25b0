import Downlevel.Parse
import Downlevel.Proofs.Cells
import Downlevel.Proofs.Delivers
import Downlevel.Proofs.Formed

/-!
# Storing nodes while a tree is put together

The reader puts a tree together and stores it once it is complete. It may as well store every node as
soon as its parts are stored, and look at stored nodes where it now looks at trees. An `Allocator` does
so: its laws say, for each way to put a tree together, which steps are taken on the stored parts instead.
Storing complete trees obeys the laws (`Build.allocator`), so `parse` gives the store that is left when
nodes are added one by one (`parse_allocates`), with the root at number zero, where it was reserved
before the first statement, and the same first fault.
-/

namespace Downlevel

/-- An action that adds nodes, or ends at a fault. -/
abbrev Making := StateT (Array Node) (Except Fault)

namespace Making

/-- Adds a node and returns its number. -/
def add (kind : Kind NodeId) (span : Span) : Making NodeId :=
  fun nodes => .ok (nodes.size, nodes.push ⟨kind, span⟩)

/-- Looks at a node that was added. -/
def look (id : NodeId) : Making Node :=
  fun nodes => .ok (nodes.getD id default, nodes)

theorem add_bind {α : Type} (kind : Kind NodeId) (span : Span) (k : NodeId → Making α)
    (nodes : Array Node) : (add kind span >>= k) nodes = k nodes.size (nodes.push ⟨kind, span⟩) :=
  rfl

theorem look_bind {α : Type} {nodes : Array Node} {X : Multiset Cell} {id : NodeId} {n : Node}
    {k : Node → Making α} (h : Owns nodes X) (hn : (id, n) ∈ X) :
    (look id >>= k) nodes = k n nodes := by
  have hget : nodes.getD id default = n := by simp [Array.getD_eq_getD_getElem?, h.get _ hn]
  change k (nodes.getD id default) nodes = _
  rw [hget]

end Making

/-- From the start of one span to the end of another. -/
def Span.to (s t : Span) : Span :=
  ⟨s.start, t.stop⟩

namespace Build

open Making

/-! ## Adding nodes one by one -/

section Steps

variable (index : LineIndex) (one : Built → Making NodeId)

/-- Adds parameters from left to right, each after its default. -/
def addParams : List ParamText → Making (List NodeId)
  | [] => return []
  | p :: ps => do
    let fallback ← p.fallback.mapM one
    if p.rest && !ps.isEmpty then throw ⟨.restNotLast, p.range.start⟩
    if p.rest && fallback.isSome then throw ⟨.restWithDefault, p.range.start⟩
    let param ← add (.param p.name fallback p.rest) (index.span p.range)
    return param :: (← addParams ps)

/-- Adds an operation to an operand that was added. -/
def addBinary (left : NodeId) (step : OperatorText × Built) : Making NodeId := do
  let op ← operator step.1
  let right ← one step.2
  add (.binary op left right) ((← look left).span.to (← look right).span)

/-- Adds what follows an operand that was added. -/
def addSuffix (base : NodeId) : Suffix → Making NodeId
  | .call range arguments => do
    let span := (← look base).span.to (index.span range)
    add (.call base (← arguments.mapM one)) span
  | .member range name => do
    add (.member base name) ((← look base).span.to (index.span range))
  | .index range key => do
    let span := (← look base).span.to (index.span range)
    add (.index base (← one key)) span

/-- Adds the substitutions of a template, of which `text` has been read already. -/
def addParts (text : String) : List TemplatePart → Making (List String × List NodeId)
  | [] => return ([text], [])
  | .chars more :: parts => addParts (text ++ more) parts
  | .substitution value :: parts => do
    let value ← one value
    let (texts, values) ← addParts "" parts
    return (text :: texts, value :: values)

end Steps

/-- A way to store what was put together, node by node: the parts from left to right, then the node. -/
structure Allocator (index : LineIndex) where
  one : Built → Making NodeId
  params : Except Fault (List RawTree) → Making (List NodeId)
  /-- A word, a literal or a lone semicolon. -/
  leaf : ∀ range k (f : RawTree → NodeId), k.children = [] →
    one (node range k) = add (k.map f) (index.span range)
  declaration : ∀ keyword declarators range, one (declaration keyword declarators range) = (do
    add (.declaration keyword (← declarators.mapM one)) (index.span range))
  declarator : ∀ name init range, one (declarator name init range) = (do
    add (.declarator name.text (← init.mapM one)) (index.span range))
  manyParams : ∀ ps, params (Build.params ps) = addParams index one ps
  functionDeclaration : ∀ name ps body range, one (functionDeclaration name ps body range) = (do
    add (.functionDeclaration name.text (← params ps) (← one body)) (index.span range))
  returnStatement : ∀ argument range, one (returnStatement argument range) = (do
    add (.returnStatement (← argument.mapM one)) (index.span range))
  ifStatement : ∀ test consequent alternate range,
    one (ifStatement test consequent alternate range) = (do
      add (.ifStatement (← one test) (← one consequent) (← alternate.mapM one)) (index.span range))
  whileStatement : ∀ test body range, one (whileStatement test body range) = (do
    add (.whileStatement (← one test) (← one body)) (index.span range))
  block : ∀ body range, one (block body range) = (do
    add (.block (← body.mapM one)) (index.span range))
  expressionStatement : ∀ expression range, one (expressionStatement expression range) = (do
    add (.expressionStatement (← one expression)) (index.span range))
  /-- The target is looked at before the value is added. -/
  assignment : ∀ target value range, one (assignment target (some value) range) = (do
    let target ← one target
    if !(← look target).kind.isPlace then throw ⟨.invalidAssignmentTarget, range.start⟩
    add (.assign target (← one value)) (index.span range))
  bareParam : ∀ name, params (bareParam name) = (do
    return [← add (.param name.text none false) (index.span name.range)])
  arrowFunction : ∀ ps body range, one (arrowFunction ps body range) = (do
    add (.arrowFunction (← params ps) (← one body)) (index.span range))
  binaryChain : ∀ first steps, one (binaryChain first steps) = (do
    steps.foldlM (addBinary one) (← one first))
  exponent : ∀ base power range, one (exponent base (some power) range) = (do
    add (.binary .power (← one base) (← one power)) (index.span range))
  unary : ∀ op argument range, one (unary op argument range) = (do
    add (.unary op (← one argument)) (index.span range))
  postfixChain : ∀ first suffixes, one (postfixChain first suffixes) = (do
    suffixes.foldlM (addSuffix index one) (← one first))
  functionExpression : ∀ name ps body range, one (functionExpression name ps body range) = (do
    add (.functionExpression (name.map Token.text) (← params ps) (← one body)) (index.span range))
  array : ∀ elements range, one (array elements range) = (do
    add (.array (← elements.mapM one)) (index.span range))
  object : ∀ properties range, one (object properties range) = (do
    add (.object (← properties.mapM one)) (index.span range))
  methodProperty : ∀ key ps body range, one (methodProperty key ps body range) = (do
    let value ← add (.functionExpression none (← params ps) (← one body)) (index.span range)
    add (.property key value false true) (index.span range))
  keyedProperty : ∀ key value range, one (keyedProperty key value range) = (do
    add (.property key (← one value) false false) (index.span range))
  shorthandProperty : ∀ name range, one (shorthandProperty name range) = (do
    let value ← add (.identifier name.text) (index.span range)
    add (.property (.identifier name.text) value true false) (index.span range))
  template : ∀ parts range, one (template parts range) = (do
    let (texts, values) ← addParts one "" parts
    add (.template texts values) (index.span range))

/-- Reserves the root, adds the statements one by one, and then says what the root is. -/
def Allocator.program {index : LineIndex} (a : Allocator index) (body : List Built) (range : Range) :
    Except Fault Store := do
  let (body, nodes) ← body.mapM a.one #[⟨.program [], {}⟩]
  return (Store.replace ⟨nodes, 0⟩ 0 (.program body)).setSpan 0 (index.span range)

/-! ## Adding complete trees -/

/-- Adds the nodes of what was put together, unless there is a fault. -/
def storing {α β : Type} (graft : α → StateM (Array Node) β) (v : Except Fault α) : Making β :=
  fun nodes => v.map fun a => graft a nodes

section Storing

variable {α β γ δ : Type} {g : α → StateM (Array Node) β} {h : γ → StateM (Array Node) δ}
  {v : Except Fault α} {f : α → Except Fault γ} {before after : Array Node}

/-- A part may be stored before the parts after it are known, since a fault leaves nothing behind. -/
theorem storing_bind {k : β → Making δ}
    (hk : ∀ a, storing h (f a) before = k (g a after).1 (g a after).2) :
    storing h (v >>= f) before = (storing g v >>= k) after := by
  cases v with
  | error e => rfl
  | ok a => exact hk a

/-- What is no part of the tree adds nothing. -/
theorem storing_lift_bind {k : α → Making δ} (hk : ∀ a, storing h (f a) before = k a after) :
    storing h (v >>= f) before = ((liftM v : Making α) >>= k) after := by
  cases v with
  | error e => rfl
  | ok a => exact hk a

end Storing

variable (index : LineIndex)

/-- Adds the nodes of a tree. -/
def graft (t : RawTree) : StateM (Array Node) NodeId :=
  Store.graft (t.map index.span)

def allocate : Built → Making NodeId :=
  storing (graft index)

def allocateAll : Except Fault (List RawTree) → Making (List NodeId) :=
  storing (·.mapM (graft index))

def allocateMaybe : Except Fault (Option RawTree) → Making (Option NodeId) :=
  storing (·.mapM (graft index))

theorem graft_node (range : Range) (k : Kind RawTree) :
    graft index (.node range k) = (do
      let kind ← k.mapM (graft index)
      modifyGet fun nodes => (nodes.size, nodes.push ⟨kind, index.span range⟩)) := by
  rw [graft, Tree.map_node, Store.graft_node, Store.mapM_map]
  rfl

/-- A node is added after its parts. -/
theorem storing_node (range : Range) (k : Kind RawTree) (nodes : Array Node) :
    storing (graft index) (pure (.node range k)) nodes
      = add (k.mapM (graft index) nodes).1 (index.span range) (k.mapM (graft index) nodes).2 := by
  change Except.ok (graft index (.node range k) nodes) = _
  rw [graft_node]
  rfl

/-- A property whose value is put together with it is added after the value. -/
theorem storing_property (range : Range) (key : PropertyKey) (k : Kind RawTree)
    (shorthand method : Bool) (nodes : Array Node) :
    storing (graft index) (pure (.node range (.property key (.node range k) shorthand method))) nodes
      = (do
        let value ← add (k.mapM (graft index) nodes).1 (index.span range)
        add (.property key value shorthand method) (index.span range))
          (k.mapM (graft index) nodes).2 := by
  refine (storing_node ..).trans ?_
  change add (.property key (graft index (.node range k) nodes).1 shorthand method) _
    (graft index (.node range k) nodes).2 = _
  rw [graft_node]
  rfl

theorem allocateAll_all (parts : List Built) :
    allocateAll index (all parts) = parts.mapM (allocate index) := by
  induction parts with
  | nil => rfl
  | cons part parts ih =>
    rw [List.mapM_cons, ← ih, all, List.mapM_cons]
    funext nodes
    refine storing_bind fun t => storing_bind fun ts => ?_
    change Except.ok ((t :: ts).mapM (graft index) nodes) = _
    rw [List.mapM_cons]
    rfl

theorem allocateMaybe_maybe (part : Option Built) :
    allocateMaybe index (maybe part) = part.mapM (allocate index) := by
  cases part with
  | none => rfl
  | some part => cases part <;> rfl

theorem allocateAll_params (ps : List ParamText) :
    allocateAll index (params ps) = addParams index (allocate index) ps := by
  induction ps with
  | nil => rfl
  | cons p ps ih =>
    rw [params, addParams, ← allocateMaybe_maybe, ← ih]
    funext nodes
    refine storing_bind fun fallback => ?_
    have hfallback : ∀ nodes, (fallback.mapM (graft index) nodes).1.isSome = fallback.isSome := by
      cases fallback <;> exact fun _ => rfl
    simp only [hfallback]
    split
    · rfl
    split
    · rfl
    rw [add_bind]
    refine storing_bind fun later => ?_
    change Except.ok (List.mapM (graft index) (.node p.range _ :: later) nodes) = _
    rw [List.mapM_cons, graft_node]
    rfl

theorem storing_templateParts (text : String) (parts : List TemplatePart) :
    storing (fun p => Prod.mk p.1 <$> p.2.mapM (graft index)) (templateParts text parts)
      = addParts (allocate index) text parts := by
  fun_induction addParts (allocate index) text parts with
  | case1 => rfl
  | case2 text more parts ih => rw [templateParts, ih]
  | case3 text value parts ih =>
    rw [templateParts, ← ih]
    funext nodes
    refine storing_bind fun t => storing_bind fun p => ?_
    change Except.ok ((Prod.mk _ <$> List.mapM (graft index) (t :: p.2)) nodes) = _
    rw [List.mapM_cons]
    rfl

/-! ### Looking at stored trees -/

theorem owns_zero (nodes : Array Node) : Owns nodes 0 :=
  ⟨by simp, by simp⟩

/-- What is to be seen of a tree that was added: its span, and whether it is a place. -/
theorem look_graft (t : RawTree) {nodes : Array Node} {X : Multiset Cell} (h : Owns nodes X) :
    ∃ kind Y, kind.isPlace = t.kind.isPlace ∧
      ((graft index t nodes).1, (⟨kind, index.span t.ann⟩ : Node)) ∈ Y ∧ X ≤ Y ∧
      Owns (graft index t nodes).2 Y := by
  obtain ⟨Y, ⟨u, hplain, hnumber, rfl⟩, howns, -⟩ :=
    Store.addsTree_graft (t.map index.span) nodes X h
  obtain ⟨⟨id, span⟩, k⟩ := u
  have hkind : k.isPlace = t.kind.isPlace := by
    have h := congrArg (fun u : Tree Span => u.kind.isPlace) hplain
    simpa [Tree.kind_map] using h
  have hspan : span = index.span t.ann := by
    have h := congrArg Tree.ann hplain
    simpa using h
  have hcell : ((graft index t nodes).1, (⟨k.map Tree.number, index.span t.ann⟩ : Node))
      = Tree.cell (id, span) k := by
    rw [graft, ← hnumber, ← hspan]
    rfl
  refine ⟨k.map Tree.number, _, (Kind.isPlace_map _ _).trans hkind, ?_, Multiset.le_add_left _ _,
    howns⟩
  rw [hcell, Tree.cells_node]
  exact Multiset.mem_add.mpr (.inl (Multiset.mem_cons_self _ _))

theorem allocate_assignment (target value : Built) (range : Range) :
    allocate index (assignment target (some value) range) = (do
      let target ← allocate index target
      if !(← look target).kind.isPlace then throw ⟨.invalidAssignmentTarget, range.start⟩
      add (.assign target (← allocate index value)) (index.span range)) := by
  funext nodes
  refine storing_bind fun t => ?_
  obtain ⟨kind, X, hplace, hmem, -, howns⟩ := look_graft index t (owns_zero nodes)
  rw [look_bind howns hmem, hplace]
  split
  · rfl
  · exact storing_bind fun _ => storing_node ..

theorem allocate_binary (left : Built) (step : OperatorText × Built) :
    allocate index (binary left step) = (do
      addBinary (allocate index) (← allocate index left) step) := by
  funext nodes
  refine storing_bind fun t => ?_
  rw [addBinary]
  refine storing_lift_bind fun op => storing_bind fun r => ?_
  obtain ⟨kind, X, -, hmem, -, howns⟩ := look_graft index t (owns_zero nodes)
  obtain ⟨kind', Y, -, hmem', hle, howns'⟩ := look_graft index r howns
  rw [look_bind howns' (Multiset.mem_of_le hle hmem), look_bind howns' hmem']
  exact storing_node ..

theorem allocate_binaryChain (first : Built) (steps : List (OperatorText × Built)) :
    allocate index (binaryChain first steps) = (do
      steps.foldlM (addBinary (allocate index)) (← allocate index first)) := by
  rw [binaryChain]
  induction steps generalizing first with
  | nil => simp
  | cons step steps ih =>
    rw [List.foldl_cons, ih, allocate_binary, bind_assoc]
    rfl

theorem allocate_suffixed (base : Built) (suffix : Suffix) :
    allocate index (suffixed base suffix) = (do
      addSuffix index (allocate index) (← allocate index base) suffix) := by
  funext nodes
  refine storing_bind fun t => ?_
  obtain ⟨kind, X, -, hmem, -, howns⟩ := look_graft index t (owns_zero nodes)
  cases suffix with
  | call range arguments =>
    rw [addSuffix, look_bind howns hmem, ← allocateAll_all]
    exact storing_bind fun _ => storing_node ..
  | member range name =>
    rw [addSuffix, look_bind howns hmem]
    exact storing_node ..
  | index range key =>
    rw [addSuffix, look_bind howns hmem]
    exact storing_bind fun _ => storing_node ..

theorem allocate_postfixChain (first : Built) (suffixes : List Suffix) :
    allocate index (postfixChain first suffixes) = (do
      suffixes.foldlM (addSuffix index (allocate index)) (← allocate index first)) := by
  rw [postfixChain]
  induction suffixes generalizing first with
  | nil => simp
  | cons suffix suffixes ih =>
    rw [List.foldl_cons, ih, allocate_suffixed, bind_assoc]
    rfl

/-! ## Both ways -/

theorem mapM_graft_leaf {k : Kind RawTree} (hk : k.children = []) (f : RawTree → NodeId)
    (nodes : Array Node) : k.mapM (graft index) nodes = (k.map f, nodes) := by
  cases k <;> simp_all [Kind.children] <;> rfl

/-- Adding complete trees gives what adding nodes one by one gives. -/
def allocator : Allocator index where
  one := allocate index
  params := allocateAll index
  leaf range k f hk := by
    funext nodes
    refine (storing_node index range k nodes).trans ?_
    rw [mapM_graft_leaf index hk f]
  declaration keyword declarators range := by
    rw [← allocateAll_all]
    exact funext fun _ => storing_bind fun _ => storing_node ..
  declarator name init range := by
    rw [← allocateMaybe_maybe]
    exact funext fun _ => storing_bind fun _ => storing_node ..
  manyParams := allocateAll_params index
  functionDeclaration name ps body range :=
    funext fun _ => storing_bind fun _ => storing_bind fun _ => storing_node ..
  returnStatement argument range := by
    rw [← allocateMaybe_maybe]
    exact funext fun _ => storing_bind fun _ => storing_node ..
  ifStatement test consequent alternate range := by
    rw [← allocateMaybe_maybe]
    exact funext fun _ =>
      storing_bind fun _ => storing_bind fun _ => storing_bind fun _ => storing_node ..
  whileStatement test body range :=
    funext fun _ => storing_bind fun _ => storing_bind fun _ => storing_node ..
  block body range := by
    rw [← allocateAll_all]
    exact funext fun _ => storing_bind fun _ => storing_node ..
  expressionStatement expression range := funext fun _ => storing_bind fun _ => storing_node ..
  assignment := allocate_assignment index
  bareParam name := by
    funext nodes
    change Except.ok (List.mapM (graft index) [.node name.range _] nodes) = _
    rw [List.mapM_cons, graft_node]
    rfl
  arrowFunction ps body range :=
    funext fun _ => storing_bind fun _ => storing_bind fun _ => storing_node ..
  binaryChain := allocate_binaryChain index
  exponent base power range :=
    funext fun _ => storing_bind fun _ => storing_bind fun _ => storing_node ..
  unary op argument range := funext fun _ => storing_bind fun _ => storing_node ..
  postfixChain := allocate_postfixChain index
  functionExpression name ps body range :=
    funext fun _ => storing_bind fun _ => storing_bind fun _ => storing_node ..
  array elements range := by
    rw [← allocateAll_all]
    exact funext fun _ => storing_bind fun _ => storing_node ..
  object properties range := by
    rw [← allocateAll_all]
    exact funext fun _ => storing_bind fun _ => storing_node ..
  methodProperty key ps body range :=
    funext fun _ => storing_bind fun _ => storing_bind fun _ => storing_property ..
  keyedProperty key value range := funext fun _ => storing_bind fun _ => storing_node ..
  shorthandProperty name range := funext fun _ => storing_property ..
  template parts range := by
    rw [← storing_templateParts]
    exact funext fun _ => storing_bind fun _ => storing_node ..

theorem setSpan_replace (s : Store) (id : NodeId) (kind : Kind NodeId) (span : Span) :
    (s.replace id kind).setSpan id span
      = { s with nodes := s.nodes.modify id fun _ => ⟨kind, span⟩ } := by
  rw [Store.replace, Store.setSpan]
  congr 1
  apply Array.ext
  · simp
  · intro i _ _
    by_cases hi : id = i <;> simp [Array.getElem_modify, hi]

theorem program_allocator (body : List Built) (range : Range) :
    (allocator index).program body range
      = (program body range).map fun t => Store.ofTree (t.map index.span) := by
  have hbody : body.mapM (allocator index).one = _ := (allocateAll_all index body).symm
  rw [Allocator.program, hbody, program]
  rcases all body with e | ts
  · rfl
  · change Except.ok _ = Except.ok (Store.ofTree ((Tree.node range (.program ts)).map index.span))
    rw [Tree.map_node, Store.ofTree, Tree.kind, Store.mapM_map]
    exact congrArg Except.ok (setSpan_replace _ _ _ _)

end Build

theorem parseRaw_of_matched {source : List Char} {built : Built} {c : Cursor}
    (h : (matchProgram source).matched = some (built, c)) :
    parseRaw source = built.mapError fun fault => (.fault fault.cause, fault.offset) := by
  unfold parseRaw
  rcases hmatch : matchProgram source with ⟨matched, tracker⟩
  rw [hmatch] at h
  dsimp only at h
  subst h
  cases built <;> rfl

/-- A text that matches the grammar gives the store that is left when each node is added as soon as its
parts are, or the first fault met on the way. -/
theorem parse_allocates {source : String} {built : Built} {c : Cursor}
    (h : (matchProgram source.toList).matched = some (built, c)) :
    ∃ body range, built = Build.program body range ∧
      parse source .next
        = ((Build.allocator (.ofText source.toList)).program body range).mapError fun fault =>
          .ofPosition (.fault fault.cause) ((LineIndex.ofText source.toList).position fault.offset) := by
  have hraw := parseRaw_of_matched h
  have hbuilt : ∃ body range, built = Build.program body range := by
    rw [matchProgram_matched, Phrase.eval_rule] at h
    refine Peg.Delivers.sound (S := fun _ _ => True)
      (Q := fun v => ∃ body range, v = Build.program body range) (fun _ _ _ _ _ => trivial) ?_ h
    refine ⟨fun _ => True, ?_, fun body _ _ _ range => ⟨body, range, rfl⟩⟩
    refine ⟨?_, ?_, ?_, ?_, ?_, ?_, ?_, ?_⟩ <;> exact fun _ _ => trivial
  obtain ⟨body, range, rfl⟩ := hbuilt
  refine ⟨body, range, rfl, ?_⟩
  rw [Build.program_allocator]
  unfold parse parseTree
  dsimp only
  rw [hraw]
  cases Build.program body range <;> rfl

end Downlevel
