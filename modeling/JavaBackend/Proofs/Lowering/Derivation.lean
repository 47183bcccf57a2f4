import JavaBackend.Proofs.Lowering.Loops

/-!
# Lowering as a relation

`Lowers ctx p task code yield p'` says what lowering can do, rule by rule: asked to do `task` at the
progress `p`, it may lay out `code`, give `yield` and leave the progress at `p'`. A rule names the
tasks that it hands on and the code that it puts around theirs, so that a fact about all generated
code is an induction over the rules, without any computation in it.

That every run that ends well is such a derivation is `Tree.derives`.
-/

namespace JavaBackend

open Java (Stmt Code Piece Expr Test Handler)
open Lower

/-! ## Tasks -/

/-- How a parent asks for the value of an operand. -/
inductive Asking where
  /-- In place, if the operand has an expression of its own. -/
  | inline
  /-- As an expression, whatever it takes. -/
  | value
  /-- As a value that nothing that follows can change. -/
  | fixed
  deriving DecidableEq

/-- What lowering is asked to do. -/
inductive Task where
  /-- The own expression of a node. -/
  | own (kind : Kind Tree) (type : JavaType)
  | operand (asking : Asking) (tree : Tree)
  | operands (asking : Asking) (trees : List Tree)
  /-- A variable for a value, after the statements for it. -/
  | temp (tree : Tree)
  /-- A variable for a value that is evaluated now. -/
  | freshTemp (tree : Tree)
  /-- A value that is used twice. -/
  | kept (tree : Tree)
  | statement (tree : Tree) (dest : Destination)
  /-- Trees in order, for their effects. -/
  | effects (trees : List Tree)
  /-- A tree that may be missing. -/
  | maybe (tree : Option Tree) (dest : Destination)
  /-- A tree that may be missing, with a default value in its place. -/
  | arm (tree : Option Tree) (dest : Destination) (type : JavaType)
  /-- The receiver of a call that returns nothing, and the value of the call. -/
  | receiver (receiver : Receiver Tree)
  | seq (nodes : List Tree) (type : JavaType) (dest : Destination)
  | guarded (body otherwise : Option Tree) (type : JavaType) (dest : Destination)
  | clauses (clauses : List (RescueClause Tree)) (type : JavaType) (dest : Destination)
  /-- The handlers of the types of a clause. -/
  | handlers (types : List JavaType) (name : Option String) (known : Bool) (body : Option Tree)
    (type : JavaType) (dest : Destination)
  | loop (spec : Loop Tree)
  | forEach (spec : ForEach Tree)
  /-- A pass of a loop with a labeled body. -/
  | pass (spec : Loop Tree) (inner : String) (flag held : Option String)
  /-- The body of a labeled loop. -/
  | labeledBody (body : Option Tree) (inner : String) (flag : Option String)
  /-- A task in a block that declares a name. -/
  | within (binding : Option Param) (task : Task)

/-- What a task gives beside its code. -/
inductive Yield where
  | done
  | value (expr : Expr)
  | values (exprs : List Expr)
  | handlers (handlers : List (Handler Code))

/-! ## Code and progress -/

namespace Destination

/-- The code that puts a value that is at hand where it belongs. -/
def put : Destination → Expr → Code
  | .discard, _ => []
  | .store sink, value => [.store sink value]

/-- The statement that puts a value where it belongs that must be evaluated in any case. -/
def putEffect : Destination → Expr → Stmt
  | .discard, value => .eval value
  | .store sink, value => .store sink value

end Destination

/-- The code that copies a variable into another one, if there is one. -/
def copyCode (copied : String) : Option String → Code
  | some name => [.store (.into name) (.var copied)]
  | none => []

/-- The labeled body of a loop: with a flag it runs again while the flag is set. -/
def labeledStmt (inner : String) (body : Code) : Option String → Stmt
  | some flag =>
    .labeled inner
      (.doLoop (.store (.into flag) (.literal (.bool false)) :: body) ⟨.var flag, false⟩)
  | none => .labeled inner (.block body)

namespace Progress

/-- The progress inside a block that declares a name. -/
def enter (p : Progress) : Option Param → Progress
  | none => p
  | some ⟨name, type⟩ =>
    match p.scope.reserve? name type with
    | none => p
    | some scope => { p with scope := scope }

/-- The progress behind a block, which forgets the name that it declares, unless the name was known
    in front of it. -/
def leave (p : Progress) (binding : Option Param) (inside : Progress) : Progress :=
  match binding with
  | none => inside
  | some ⟨name, type⟩ =>
    match p.scope.reserve? name type with
    | none => inside
    | some _ => { inside with scope := inside.scope.release name }

end Progress

/-- The type of the elements that a loop goes over. -/
def ForEach.element (spec : ForEach Tree) : JavaType :=
  spec.iterable.type.component?.getD .object

/-! ## Nodes -/

/-- Operands are all written in place, or all evaluated before they are used. -/
def placing (isLocal : String → Bool) (trees : List Tree) : Asking :=
  if trees.all (·.isExpression isLocal) then .inline else .fixed

namespace Kind

/-- How a node asks for its operands. -/
def asking (isLocal : String → Bool) : Kind Tree → Asking
  | .call receiver _ args _ => placing isLocal (receiver.toList ++ args)
  | .new _ args => placing isLocal args
  | .binary _ left right => placing isLocal [left, right]
  | .concat parts => placing isLocal parts
  | .cond _ _ _ => .inline
  | _ => .value

/-- What a node that only reads a field notes. -/
def noteUse (type : JavaType) (p : Progress) : Kind Tree → Progress
  | .field name isStatic => p.useField ⟨name, type, isStatic⟩
  | _ => p

/-- The nodes that are nothing but their value: without it only their operands count. -/
def isValue : Kind Tree → Bool
  | .literal _ | .self | .var _ | .field _ _ | .unary _ _ | .isNull _ | .instanceOf _ _ | .cast _ _
  | .concat _ | .newArray _ _ => true
  | .binary op _ _ => !op.isLogical
  | _ => false

theorem isInline_of_isValue {kind : Kind Tree} (value : kind.isValue = true) (type : JavaType)
    (isLocal : String → Bool) : (Tree.node kind type).isInline isLocal = true := by
  cases kind with
  | binary op left right =>
    have plain : op.isLogical = false := by simpa [isValue] using value
    simp [Tree.isInline, Tree.kind, plain]
  | assign | cond => cases value
  | _ => rfl

/-- The nodes whose own expression is a statement, too. -/
def isEffect (dest : Destination) : Kind Tree → Bool
  | .new _ _ => true
  | .call _ _ _ returns => !(returns.isVoid && dest.wantsValue)
  | _ => false

theorem isInline_of_isEffect {kind : Kind Tree} {dest : Destination}
    (effect : kind.isEffect dest = true) (type : JavaType) (isLocal : String → Bool) :
    (Tree.node kind type).isInline isLocal = true := by
  cases kind with
  | assign | binary | cond => cases effect
  | _ => rfl

end Kind

/-! ## The rules -/

/-- What lowering can do. -/
inductive Lowers : Context → Progress → Task → Code → Yield → Progress → Prop where
  -- values
  | own {ctx p kind type code exprs expr q}
    (operands : Lowers ctx p (.operands (kind.asking p.scope.isLocal) kind.children) code
      (.values exprs) q)
    (built : kind.build? ctx type exprs = some expr) :
    Lowers ctx p (.own kind type) code (.value expr) (kind.noteUse type q)
  | inlineOwn {ctx p kind type code yield p'}
    (placed : (Tree.node kind type).isInline p.scope.isLocal = true)
    (own : Lowers ctx p (.own kind type) code yield p') :
    Lowers ctx p (.operand .inline (.node kind type)) code yield p'
  | inlineTemp {ctx p tree code yield p'} (temp : Lowers ctx p (.temp tree) code yield p') :
    Lowers ctx p (.operand .inline tree) code yield p'
  | valueInline {ctx p tree code yield p'}
    (placed : (tree.isExpression p.scope.isLocal || tree.kind.combinesOperands) = true)
    (inline : Lowers ctx p (.operand .inline tree) code yield p') :
    Lowers ctx p (.operand .value tree) code yield p'
  | valueTemp {ctx p tree code yield p'}
    (unplaced : (tree.isExpression p.scope.isLocal || tree.kind.combinesOperands) = false)
    (temp : Lowers ctx p (.temp tree) code yield p') :
    Lowers ctx p (.operand .value tree) code yield p'
  | fixedInline {ctx p tree code yield p'}
    (constant : tree.kind = .self ∨ ∃ value, tree.kind = .literal value)
    (inline : Lowers ctx p (.operand .inline tree) code yield p') :
    Lowers ctx p (.operand .fixed tree) code yield p'
  | fixedTemp {ctx p tree code yield p'}
    (temp : Lowers ctx p (.freshTemp tree) code yield p') :
    Lowers ctx p (.operand .fixed tree) code yield p'
  | keptInline {ctx p tree code yield p'}
    (constant : tree.kind = .self ∨ ∃ name, tree.kind = .var name)
    (inline : Lowers ctx p (.operand .inline tree) code yield p') :
    Lowers ctx p (.kept tree) code yield p'
  | keptTemp {ctx p tree code yield p'}
    (temp : Lowers ctx p (.freshTemp tree) code yield p') :
    Lowers ctx p (.kept tree) code yield p'
  | operandsNil {ctx p asking} : Lowers ctx p (.operands asking []) [] (.values []) p
  | operandsCons {ctx p asking tree rest code more expr exprs p₁ p'}
    (first : Lowers ctx p (.operand asking tree) code (.value expr) p₁)
    (others : Lowers ctx p₁ (.operands asking rest) more (.values exprs) p') :
    Lowers ctx p (.operands asking (tree :: rest)) (code ++ more) (.values (expr :: exprs)) p'
  -- variables for values
  | freshInline {ctx p tree code expr q}
    (placed : tree.isExpression p.scope.isLocal = true)
    (inline : Lowers ctx p (.operand .inline tree) code (.value expr) q) :
    Lowers ctx p (.freshTemp tree) (code ++ [q.declareTemp tree.type.held expr])
      (.value (.var q.nextTemp)) (q.takeTemp tree.type.held)
  | freshTemp {ctx p tree code yield p'} (temp : Lowers ctx p (.temp tree) code yield p') :
    Lowers ctx p (.freshTemp tree) code yield p'
  | tempLoop {ctx p tree code q}
    (looped : (∃ spec, tree.kind = .loop spec) ∨ ∃ spec, tree.kind = .forEach spec)
    (loop : Lowers ctx p (.statement tree .discard) code .done q) :
    Lowers ctx p (.temp tree) (code ++ [q.declareTemp .object (.literal .null)])
      (.value (.var q.nextTemp)) (q.takeTemp .object)
  | tempAssign {ctx p name value type code p'}
    (assigned : Lowers ctx p (.statement (.node (.assign name value) type) .discard) code .done
      p') :
    Lowers ctx p (.temp (.node (.assign name value) type)) code (.value (.var name)) p'
  | tempStore {ctx p tree code p'}
    (stored : Lowers ctx (p.takeTemp tree.type.held)
      (.statement tree (.store (.into p.nextTemp))) code .done p') :
    Lowers ctx p (.temp tree)
      (p.declareTemp tree.type.held (.literal tree.type.held.defaultValue) :: code)
      (.value (.var p.nextTemp)) p'
  -- nodes with a value
  | discardValue {ctx p kind type code p'} (value : kind.isValue = true)
    (operands : Lowers ctx p (.effects kind.children) code .done p') :
    Lowers ctx p (.statement (.node kind type) .discard) code .done p'
  | storeValue {ctx p kind type sink code expr p'} (value : kind.isValue = true)
    (own : Lowers ctx p (.own kind type) code (.value expr) p') :
    Lowers ctx p (.statement (.node kind type) (.store sink)) (code ++ [.store sink expr]) .done p'
  | putEffect {ctx p kind type dest code expr p'} (effect : kind.isEffect dest = true)
    (own : Lowers ctx p (.own kind type) code (.value expr) p') :
    Lowers ctx p (.statement (.node kind type) dest) (code ++ [dest.putEffect expr]) .done p'
  -- assignments and calls
  | assignKnown {ctx p name value type dest code expr p'}
    (operand : Lowers ctx p (.operand .value value) code (.value expr) p')
    (known : p'.scope.isLocal name = true) :
    Lowers ctx p (.statement (.node (.assign name value) type) dest)
      (code ++ .store (.into name) expr :: dest.put (.var name)) .done p'
  | assignNew {ctx p name value type dest code expr q scope}
    (operand : Lowers ctx p (.operand .value value) code (.value expr) q)
    (reserved : q.scope.reserve? name type.held = some scope) :
    Lowers ctx p (.statement (.node (.assign name value) type) dest)
      (code ++ .declare type.held name expr :: dest.put (.var name)) .done
      { q with scope := scope }
  | setField {ctx p name value isStatic type dest code expr p'}
    (operand : Lowers ctx (p.useField ⟨name, type.held, isStatic⟩) (.operand .value value) code
      (.value expr) p') :
    Lowers ctx p (.statement (.node (.setField name value isStatic) type) dest)
      (code ++ .setField (ctx.field name isStatic) expr :: dest.put (ctx.field name isStatic)) .done
      p'
  | voidCall {ctx p receiver method args returns type sink code more target value exprs q p'}
    (void : returns.isVoid = true)
    (received : Lowers ctx p (.receiver receiver) code (.values [target, value]) q)
    (operands : Lowers ctx q (.operands (placing q.scope.isLocal args) args) more (.values exprs)
      p') :
    Lowers ctx p (.statement (.node (.call receiver method args returns) type) (.store sink))
      (code ++ (more ++ [.eval (.call target method exprs), .store sink value])) .done p'
  | receiverOwn {ctx p} :
    Lowers ctx p (.receiver .implicit) []
      (.values [ctx.ownReceiver, if ctx.isStatic then .literal .null else .this]) p
  | receiverNamed {ctx p type} :
    Lowers ctx p (.receiver (.named type)) [] (.values [.owner type.source, .literal .null]) p
  | receiverValue {ctx p tree code expr p'}
    (kept : Lowers ctx p (.kept tree) code (.value expr) p') :
    Lowers ctx p (.receiver (.value tree)) code (.values [expr, expr]) p'
  -- branches and sequences
  | condElse {ctx p test yes no type dest code yesCode noCode expr p₁ p₂ p'}
    (tested : Lowers ctx p (.operand .value test) code (.value expr) p₁)
    (yesArm : Lowers ctx p₁ (.arm yes dest type.held) yesCode .done p₂)
    (noArm : Lowers ctx p₂ (.arm no dest type.held) noCode .done p') :
    Lowers ctx p (.statement (.node (.cond test yes no) type) dest)
      (code ++ [.ifElse ⟨expr, false⟩ yesCode noCode]) .done p'
  | condThen {ctx p test yes type code yesCode expr p₁ p'}
    (tested : Lowers ctx p (.operand .value test) code (.value expr) p₁)
    (yesArm : Lowers ctx p₁ (.arm yes .discard type.held) yesCode .done p') :
    Lowers ctx p (.statement (.node (.cond test yes none) type) .discard)
      (code ++ [.ifThen ⟨expr, false⟩ yesCode]) .done p'
  | andStore {ctx p left right type sink code more expr q p'}
    (tested : Lowers ctx p (.operand .value left) code (.value expr) q)
    (run : Lowers ctx q (.statement right (.store sink)) more .done p') :
    Lowers ctx p (.statement (.node (.binary .and left right) type) (.store sink))
      (code ++ [.ifElse ⟨expr, false⟩ more [.store sink (.literal (.bool false))]]) .done p'
  | orStore {ctx p left right type sink code more expr q p'}
    (tested : Lowers ctx p (.operand .value left) code (.value expr) q)
    (run : Lowers ctx q (.statement right (.store sink)) more .done p') :
    Lowers ctx p (.statement (.node (.binary .or left right) type) (.store sink))
      (code ++ [.ifElse ⟨expr, false⟩ [.store sink (.literal (.bool true))] more]) .done p'
  | logicalDiscard {ctx p op left right type code more expr q p'} (logical : op.isLogical = true)
    (tested : Lowers ctx p (.operand .value left) code (.value expr) q)
    (run : Lowers ctx q (.statement right .discard) more .done p') :
    Lowers ctx p (.statement (.node (.binary op left right) type) .discard)
      (code ++ [.ifThen ⟨expr, op == .or⟩ more]) .done p'
  | seq {ctx p nodes type dest code p'}
    (ordered : Lowers ctx p (.seq nodes type dest) code .done p') :
    Lowers ctx p (.statement (.node (.seq nodes) type) dest) code .done p'
  | seqNil {ctx p type dest} :
    Lowers ctx p (.seq [] type dest) (dest.put (.literal type.held.defaultValue)) .done p
  | seqLast {ctx p last type dest code p'}
    (statement : Lowers ctx p (.statement last dest) code .done p') :
    Lowers ctx p (.seq [last] type dest) code .done p'
  | seqCons {ctx p first second rest type dest code more q p'}
    (statement : Lowers ctx p (.statement first .discard) code .done q)
    (others : Lowers ctx q (.seq (second :: rest) type dest) more .done p') :
    Lowers ctx p (.seq (first :: second :: rest) type dest) (code ++ more) .done p'
  -- parts that may be missing
  | effectsNil {ctx p} : Lowers ctx p (.effects []) [] .done p
  | effectsCons {ctx p tree rest code more q p'}
    (first : Lowers ctx p (.statement tree .discard) code .done q)
    (others : Lowers ctx q (.effects rest) more .done p') :
    Lowers ctx p (.effects (tree :: rest)) (code ++ more) .done p'
  | maybeNone {ctx p dest} : Lowers ctx p (.maybe none dest) [] .done p
  | maybeSome {ctx p tree dest code p'}
    (statement : Lowers ctx p (.statement tree dest) code .done p') :
    Lowers ctx p (.maybe (some tree) dest) code .done p'
  | armNone {ctx p dest type} :
    Lowers ctx p (.arm none dest type) (dest.put (.literal type.defaultValue)) .done p
  | armSome {ctx p tree dest type code p'}
    (statement : Lowers ctx p (.statement tree dest) code .done p') :
    Lowers ctx p (.arm (some tree) dest type) code .done p'
  -- ends
  | jump {ctx p action type dest code loop others} (around : ctx.loops = loop :: others)
    (jumps : loop.Jumps action code) :
    Lowers ctx p (.statement (.node (.jump action) type) dest) code .done p
  | retNone {ctx p type dest} :
    Lowers ctx p (.statement (.node (.ret none) type) dest) [.ret] .done p
  | retVoid {ctx p value type dest code p'} (void : ctx.returns.isVoid = true)
    (statement : Lowers ctx p (.statement value .discard) code .done p') :
    Lowers ctx p (.statement (.node (.ret (some value)) type) dest) (code ++ [.ret]) .done p'
  | retInline {ctx p value type dest code expr p'} (returns : ctx.returns.isVoid = false)
    (placed : value.isExpression p.scope.isLocal = true)
    (inline : Lowers ctx p (.operand .inline value) code (.value expr) p') :
    Lowers ctx p (.statement (.node (.ret (some value)) type) dest)
      (code ++ [.store .result expr]) .done p'
  | retStore {ctx p value type dest code p'} (returns : ctx.returns.isVoid = false)
    (statement : Lowers ctx p (.statement value (.store .result)) code .done p') :
    Lowers ctx p (.statement (.node (.ret (some value)) type) dest) code .done p'
  | raiseInline {ctx p value type dest code expr p'}
    (placed : value.isExpression p.scope.isLocal = true)
    (inline : Lowers ctx p (.operand .inline value) code (.value expr) p') :
    Lowers ctx p (.statement (.node (.raise value) type) dest) (code ++ [.store .thrown expr]) .done
      p'
  | raiseStore {ctx p value type dest code p'}
    (statement : Lowers ctx p (.statement value (.store .thrown)) code .done p') :
    Lowers ctx p (.statement (.node (.raise value) type) dest) code .done p'
  | print {ctx p value newline type dest code exprs p'}
    (operand : Lowers ctx p (.operands .value value.toList) code (.values exprs) p') :
    Lowers ctx p (.statement (.node (.print value newline) type) dest)
      (code ++ .print newline exprs.head? :: dest.put (.literal .null)) .done p'
  -- exceptions
  | guardedPlain {ctx p body type dest code p'}
    (arm : Lowers ctx p (.arm body dest type) code .done p') :
    Lowers ctx p (.guarded body none type dest) code .done p'
  | guardedElse {ctx p body tree type dest code more q p'}
    (arm : Lowers ctx p (.arm body .discard type) code .done q)
    (otherwise : Lowers ctx q (.statement tree dest) more .done p') :
    Lowers ctx p (.guarded body (some tree) type dest) (code ++ more) .done p'
  | rescueNone {ctx p body otherwise type dest code p'}
    (guarded : Lowers ctx p (.guarded body otherwise type.held dest) code .done p') :
    Lowers ctx p (.statement (.node (.rescue body [] otherwise) type) dest) code .done p'
  | rescue {ctx p body clauses otherwise type dest code handlers q p'} (some : clauses ≠ [])
    (guarded : Lowers ctx p (.guarded body otherwise type.held dest) code .done q)
    (handled : Lowers ctx q (.clauses clauses type.held dest) [] (.handlers handlers) p') :
    Lowers ctx p (.statement (.node (.rescue body clauses otherwise) type) dest)
      [.tryCatch code handlers] .done p'
  | clausesNil {ctx p type dest} : Lowers ctx p (.clauses [] type dest) [] (.handlers []) p
  | clausesCons {ctx p clause rest type dest handlers more q p'}
    (first : Lowers ctx p
      (.handlers (if clause.types.isEmpty then [anyException] else clause.types) clause.name
        (clause.name.any p.scope.isLocal) clause.body type dest) [] (.handlers handlers) q)
    (others : Lowers ctx q (.clauses rest type dest) [] (.handlers more) p') :
    Lowers ctx p (.clauses (clause :: rest) type dest) [] (.handlers (handlers ++ more)) p'
  | handlersNil {ctx p name known body type dest} :
    Lowers ctx p (.handlers [] name known body type dest) [] (.handlers []) p
  | handlersNamed {ctx p caught rest name body type dest code handlers q p'}
    (handled : Lowers ctx p (.within (some ⟨name, caught⟩) (.arm body dest type)) code .done q)
    (others : Lowers ctx q (.handlers rest (some name) false body type dest) []
      (.handlers handlers) p') :
    Lowers ctx p (.handlers (caught :: rest) (some name) false body type dest) []
      (.handlers (⟨caught, name, code⟩ :: handlers)) p'
  | handlersFresh {ctx p caught rest name known body type dest code handlers q p'}
    (taken : name = none ∨ known = true)
    (handled : Lowers ctx p.takeName (.arm body dest type) code .done q)
    (others : Lowers ctx q (.handlers rest name known body type dest) [] (.handlers handlers) p') :
    Lowers ctx p (.handlers (caught :: rest) name known body type dest) []
      (.handlers (⟨caught, p.nextTemp, copyCode p.nextTemp name ++ code⟩ :: handlers)) p'
  | ensure {ctx p body cleanup type dest code last q p'}
    (run : Lowers ctx p (.statement body dest) code .done q)
    (finally_ : Lowers ctx q (.statement cleanup .discard) last .done p') :
    Lowers ctx p (.statement (.node (.ensure body cleanup) type) dest) [.tryFinally code last] .done
      p'
  -- loops
  | loop {ctx p spec type dest code p'} (loop : Lowers ctx p (.loop spec) code .done p') :
    Lowers ctx p (.statement (.node (.loop spec) type) dest)
      (code ++ dest.put (.literal .null)) .done p'
  | forEach {ctx p spec type dest code p'} (loop : Lowers ctx p (.forEach spec) code .done p') :
    Lowers ctx p (.statement (.node (.forEach spec) type) dest)
      (code ++ dest.put (.literal .null)) .done p'
  | plainLoop {ctx p spec code test pre body expr p₁ p₂ p₃ p'} (redo : spec.redo = false)
    (post : spec.post = none)
    (placed : spec.cond.isExpression p.scope.isLocal = true)
    (init : Lowers ctx p (.maybe spec.init .discard) code .done p₁)
    (tested : Lowers ctx p₁ (.operand .inline spec.cond) test (.value expr) p₂)
    (opened : Lowers (ctx.enter ⟨.plainWhile, none, none⟩) p₂ (.maybe spec.pre .discard) pre .done
      p₃)
    (passed : Lowers (ctx.enter ⟨.plainWhile, none, none⟩) p₃ (.maybe spec.body .discard) body
      .done p') :
    Lowers ctx p (.loop spec)
      (code ++ (test ++ [loopStmt spec.checkFirst ⟨expr, spec.negative⟩ (pre ++ body)])) .done p'
  | testedLoop {ctx p spec code test pass expr p₁ q p'}
    (labeled : spec.redo = true ∨ spec.post.isSome = true ∨
      spec.cond.isExpression p.scope.isLocal = false)
    (init : Lowers ctx p (.maybe spec.init .discard) code .done p₁)
    (tested : Lowers ctx p₁ (.operand .inline spec.cond) test (.value expr) q)
    (placed : spec.cond.isExpression p₁.scope.isLocal = true)
    (passed : Lowers
      (ctx.enter ⟨.labeledWhile, q.nextLabels, q.flag spec.redo⟩)
      (q.takeLabels.takeFlag spec.redo)
      (.pass spec q.nextLabels.inner (q.flag spec.redo) none) pass .done p') :
    Lowers ctx p (.loop spec)
      (code ++ (test ++ [.labeled q.nextLabels.outer (loopStmt spec.checkFirst
        ⟨expr, spec.negative⟩ (q.flagCode spec.redo ++ pass))])) .done p'
  | heldLoop {ctx p spec code first pass p₁ q p'}
    (init : Lowers ctx p (.maybe spec.init .discard) code .done p₁)
    (unplaced : spec.cond.isExpression p₁.scope.isLocal = false)
    (tested : Lowers ctx (p₁.takeTemp .boolean)
      (.maybe (if spec.checkFirst then some spec.cond else none) (.store (.into p₁.nextTemp))) first
      .done q)
    (passed : Lowers
      (ctx.enter ⟨.labeledWhile, q.nextLabels, q.flag spec.redo⟩)
      (q.takeLabels.takeFlag spec.redo)
      (.pass spec q.nextLabels.inner (q.flag spec.redo) p₁.nextTemp) pass .done
      p') :
    Lowers ctx p (.loop spec)
      (code ++ p₁.declareFlag ::
        (first ++ [.labeled q.nextLabels.outer (loopStmt spec.checkFirst
          ⟨.var p₁.nextTemp, spec.negative⟩
          (q.flagCode spec.redo ++ pass))])) .done p'
  | pass {ctx p spec inner flag held code body post test p₁ p₂ p₃ p'}
    (opened : Lowers ctx p (.maybe spec.pre .discard) code .done p₁)
    (passed : Lowers ctx p₁ (.labeledBody spec.body inner flag) body .done p₂)
    (ended : Lowers ctx p₂ (.maybe spec.post .discard) post .done p₃)
    (tested : Lowers ctx p₃ (.maybe (held.map fun _ => spec.cond)
      (held.elim .discard fun name => .store (.into name))) test .done p') :
    Lowers ctx p (.pass spec inner flag held) (code ++ (body ++ (post ++ test))) .done p'
  | labeledBody {ctx p body inner flag code p'}
    (passed : Lowers ctx p (.maybe body .discard) code .done p') :
    Lowers ctx p (.labeledBody body inner flag) [labeledStmt inner code flag] .done p'
  | plainElements {ctx p spec code pass expr q p'}
    (redo : spec.redo = false)
    (iterated : Lowers ctx p (.operand .value spec.iterable) code (.value expr) q)
    (fresh : q.scope.isLocal spec.var = false)
    (passed : Lowers (ctx.enter ⟨.plainForEach, none, none⟩) q
      (.within (some ⟨spec.var, spec.element⟩) (.maybe spec.body .discard)) pass .done p') :
    Lowers ctx p (.forEach spec) (code ++ [.forEach spec.element spec.var expr pass]) .done p'
  | copiedElements {ctx p spec code pass expr q p'}
    (redo : spec.redo = false)
    (iterated : Lowers ctx p (.operand .value spec.iterable) code (.value expr) q)
    (known : q.scope.isLocal spec.var = true)
    (passed : Lowers (ctx.enter ⟨.plainForEach, none, none⟩) q.takeName
      (.maybe spec.body .discard) pass .done p') :
    Lowers ctx p (.forEach spec)
      (code ++ [.forEach spec.element q.nextTemp expr
        (.store (.into spec.var) (.var q.nextTemp) :: pass)]) .done p'
  | labeledElements {ctx p spec code pass expr q p'}
    (redo : spec.redo = true)
    (iterated : Lowers ctx p (.operand .value spec.iterable) code (.value expr) q)
    (fresh : q.scope.isLocal spec.var = false)
    (passed : Lowers (ctx.enter ⟨.labeledForEach, q.nextLabels, q.nextTemp⟩)
      (q.takeLabels.takeTemp .boolean)
      (.within (some ⟨spec.var, spec.element⟩)
        (.labeledBody spec.body q.nextLabels.inner q.nextTemp)) pass .done p') :
    Lowers ctx p (.forEach spec)
      (code ++ [.labeled q.nextLabels.outer (.forEach spec.element spec.var expr
        (q.declareFlag :: pass))]) .done p'
  | labeledCopies {ctx p spec code pass expr q p'}
    (redo : spec.redo = true)
    (iterated : Lowers ctx p (.operand .value spec.iterable) code (.value expr) q)
    (known : q.scope.isLocal spec.var = true)
    (passed : Lowers (ctx.enter ⟨.labeledForEach, q.nextLabels, q.takeName.nextTemp⟩)
      (q.takeName.takeLabels.takeTemp .boolean)
      (.labeledBody spec.body q.nextLabels.inner q.takeName.nextTemp) pass .done p') :
    Lowers ctx p (.forEach spec)
      (code ++ [.labeled q.nextLabels.outer (.forEach spec.element q.nextTemp expr
        (.store (.into spec.var) (.var q.nextTemp) ::
          q.takeName.declareFlag :: pass))]) .done
      p'
  -- names of blocks
  | within {ctx p binding task code yield q} (inside : Lowers ctx (p.enter binding) task code yield q) :
    Lowers ctx p (.within binding task) code yield (p.leave binding q)

end JavaBackend
