import CellScript.Proofs.Syntax

/-!
How a text reads as a tree.

The relations below are the grammar of the language: which trees stand at a place
of the text, and where the text goes on behind them. They share the recognizers of
single tokens with the compiler and nothing else. Precedence is a stratification
by levels in place of a stack of waiting operators, and blocks nest by recursion
in place of stacks of open blocks and unpatched jumps.

A place is a `Front`: besides the cursor it carries the store and the open body,
because what a name stands for depends on the names read before it. Reading a name
makes its record when it is new, reading a long string literal makes the record of
the literal, and a definition fills in the record of its name.
-/

namespace CellScript

/-- A place in the text, with what the text before it has set up. -/
structure Front where
  cursor : Cursor
  store : Store
  body : Option Body
  maxSlots : Nat

namespace Front

def goto (f : Front) (c : Cursor) : Front := { f with cursor := c }

def withStore (f : Front) (st : Store) : Front := { f with store := st }

def withHeap (f : Front) (h : Heap) : Front := { f with store := { f.store with heap := h } }

/-- What a name that is read stands for. -/
def resolve (f : Front) (id : Ident) : Place :=
  match f.body with
  | some body => if body.locals.contains id then .slot (f.store.heap.identSlot id) else .global id
  | none => .global id

/-- Makes a name the next local of the body. The record of the body counts its slots. -/
def addLocal (f : Front) (body : Body) (id : Ident) : Front :=
  let locals := body.locals ++ [id]
  { f.withHeap ((f.store.heap.setIdentSlot id (UInt8.ofNat body.locals.length)).setIdentSlot
      body.id (UInt8.ofNat locals.length)) with
    body := some { body with locals } }

/-- Opens a body whose code begins at `entry`. -/
def openBody (f : Front) (id : Ident) (isFunc : Bool) (entry : UInt16) : Front :=
  { f.withHeap ((f.store.heap.setIdentValue id
      (if isFunc then .func entry else .proc entry)).setIdentSlot id 0) with
    body := some { id, isFunc, locals := [] } }

/-- Ends the list of parameters; their number goes into the record. -/
def countParameters (f : Front) (body : Body) : Front :=
  f.withHeap (f.store.heap.setIdentArguments body.id (UInt8.ofNat body.locals.length))

/-- Closes a body; its locals have no slots any more. -/
def closeBody (f : Front) (body : Body) : Front :=
  { f.withHeap (body.locals.foldl (fun h id => h.setIdentSlot id Ident.noSlot) f.store.heap) with
    body := none }

end Front

namespace Grammar

def literalOfNumber : Number → Literal
  | .int n => .int n
  | .float h => .float h

/-- A string literal; a long one gets a record. -/
inductive Text : Front → StringToken → Literal → Front → Prop
  | empty {f : Front} : Text f .empty .empty f
  | char {f : Front} {c : UInt8} : Text f (.char c) (.char c) f
  | long {f : Front} {start length : Nat} {raw : List UInt8} {offset : UInt16} {h : Heap} :
      Heap.allocStr (StringLiteral.unescape raw) f.store.heap = .ok offset h →
      Text f (.long start raw length) (.long offset) (f.withHeap h)

/-- A word that is not reserved, as the record of a name. -/
inductive Name : Front → Ident → Front → Prop
  | mk {f : Front} {w : WordToken} {c : Cursor} {id : Ident} {new : Bool} {st : Store} :
      f.cursor.word = (some w, c) → Keyword.lookup? w.bytes = none →
      Store.intern w.bytes f.store = .ok (id, new) st →
      Name f id ((f.goto c).withStore st)

inductive Reserved (k : Keyword) : Front → Front → Prop
  | mk {f : Front} {w : WordToken} {c : Cursor} :
      f.cursor.word = (some w, c) → Keyword.lookup? w.bytes = some k →
      Reserved k f (f.goto c)

inductive Mark (b : UInt8) : Front → Front → Prop
  | mk {f : Front} {c : Cursor} : f.cursor.symbol b = (true, c) → Mark b f (f.goto c)

/-- Something else than a byte of punctuation; only blanks are passed. -/
inductive NoMark (b : UInt8) : Front → Front → Prop
  | mk {f : Front} {c : Cursor} : f.cursor.symbol b = (false, c) → NoMark b f (f.goto c)

/-! ### Expressions -/

mutual

/-- `Level k f e f'`: the expression `e` stands between `f` and `f'`, and its operators
outside of brackets have precedence `k` or more. -/
inductive Level : Nat → Front → Expr → Front → Prop
  | tighter {k : Nat} {f f' : Front} {e : Expr} : Level (k + 1) f e f' → Level k f e f'
  | binary {f f₁ f₂ : Front} {a b : Expr} {t : OperatorToken} {c : Cursor} :
      Level t.operator.prec f a f₁ → f₁.cursor.binaryOperator = (some t, c) →
      Level (t.operator.prec + 1) (f₁.goto c) b f₂ →
      Level t.operator.prec f (.apply t.operator.op [a, b]) f₂
  | unary {f f' : Front} {e : Expr} {t : OperatorToken} {c : Cursor} :
      f.cursor.unaryOperator = (some t, c) → Level t.operator.prec (f.goto c) e f' →
      Level t.operator.prec f (.apply t.operator.op [e]) f'
  | operand {f f' : Front} {e : Expr} {c : Cursor} :
      f.cursor.unaryOperator = (none, c) → Operand (f.goto c) e f' → Level 12 f e f'

inductive Operand : Front → Expr → Front → Prop
  | group {f f₁ f₂ f₃ : Front} {e : Expr} :
      Mark Symbol.openParen f f₁ → Expression f₁ e f₂ → Mark Symbol.closeParen f₂ f₃ →
      Operand f e f₃
  | array {f f₁ f₂ : Front} {es : List Expr} :
      Mark Symbol.openBracket f f₁ → Listed Symbol.closeBracket f₁ es f₂ → es.length ≤ 255 →
      Operand f (.array es) f₂
  | number {f : Front} {t : NumberToken} {c : Cursor} :
      f.cursor.number = .ok (some t) c →
      Operand f (.literal (literalOfNumber t.value)) (f.goto c)
  | text {f f' : Front} {t : StringToken} {l : Literal} {c : Cursor} :
      f.cursor.string = .ok (some t) c → Text (f.goto c) t l f' → Operand f (.literal l) f'
  | yes {f f' : Front} : Reserved ⟨.litTrue, .constant⟩ f f' → Operand f (.literal (.truth true)) f'
  | no {f f' : Front} : Reserved ⟨.litFalse, .constant⟩ f f' →
      Operand f (.literal (.truth false)) f'
  | builtin {f f₁ f₂ f₃ : Front} {op : Opcode} {es : List Expr} :
      Reserved ⟨op, .function es.length⟩ f f₁ → Mark Symbol.openParen f₁ f₂ →
      Listed Symbol.closeParen f₂ es f₃ → Operand f (.apply op es) f₃
  | call {f f₁ f₂ f₃ : Front} {id : Ident} {es : List Expr} :
      Name f id f₁ → Mark Symbol.openParen f₁ f₂ → Listed Symbol.closeParen f₂ es f₃ →
      es.length ≤ 255 → Operand f (.call id es) f₃
  | variable {f f₁ f₂ f₃ : Front} {id : Ident} {e : Expr} :
      Name f id f₁ → NoMark Symbol.openParen f₁ f₂ → Indexed (.name (f₂.resolve id)) f₂ e f₃ →
      Operand f e f₃

/-- Any number of indices and ranges behind a variable. -/
inductive Indexed : Expr → Front → Expr → Front → Prop
  | done {f f' : Front} {e : Expr} : NoMark Symbol.openBracket f f' → Indexed e f e f'
  | index {f f₁ f₂ f₃ f₄ f₅ : Front} {e i e' : Expr} :
      Mark Symbol.openBracket f f₁ → Expression f₁ i f₂ → NoMark Symbol.colon f₂ f₃ →
      Mark Symbol.closeBracket f₃ f₄ → Indexed (.apply .index [e, i]) f₄ e' f₅ →
      Indexed e f e' f₅
  | range {f f₁ f₂ f₃ f₄ f₅ f₆ : Front} {e i j e' : Expr} :
      Mark Symbol.openBracket f f₁ → Expression f₁ i f₂ → Mark Symbol.colon f₂ f₃ →
      Expression f₃ j f₄ → Mark Symbol.closeBracket f₄ f₅ →
      Indexed (.apply .slice [e, i, j]) f₅ e' f₆ → Indexed e f e' f₆

/-- Expressions with commas between them up to a closing byte. -/
inductive Listed : UInt8 → Front → List Expr → Front → Prop
  | none {close : UInt8} {f f' : Front} : Mark close f f' → Listed close f [] f'
  | some {close : UInt8} {f f₁ f₂ : Front} {e : Expr} {es : List Expr} :
      NoMark close f f₁ → ListedFrom close f₁ e es f₂ → Listed close f (e :: es) f₂

/-- The same where one expression at least has to come. -/
inductive ListedFrom : UInt8 → Front → Expr → List Expr → Front → Prop
  | last {close : UInt8} {f f₁ f₂ f₃ : Front} {e : Expr} :
      Expression f e f₁ → NoMark Symbol.comma f₁ f₂ → Mark close f₂ f₃ →
      ListedFrom close f e [] f₃
  | more {close : UInt8} {f f₁ f₂ f₃ : Front} {e e' : Expr} {es : List Expr} :
      Expression f e f₁ → Mark Symbol.comma f₁ f₂ → ListedFrom close f₂ e' es f₃ →
      ListedFrom close f e (e' :: es) f₃

/-- A whole expression: no operator follows it. -/
inductive Expression : Front → Expr → Front → Prop
  | mk {f f' : Front} {e : Expr} {c : Cursor} :
      Level 0 f e f' → f'.cursor.binaryOperator = (none, c) → Expression f e (f'.goto c)

end

/-! ### Statements -/

/-- Makes a name a local. A name of a procedure or function stays what it is. -/
inductive Declared : Front → Ident → Front → Prop
  | mk {f : Front} {body : Body} {id : Ident} :
      f.body = some body → Compiler.isBody (f.store.heap.identValue id) = false →
      body.locals.length < f.maxSlots → Declared f id (f.addLocal body id)

/-- What a name that is stored to stands for. In a body, a new name becomes a local. -/
inductive Target : Front → Ident → Place → Front → Prop
  | global {f : Front} {id : Ident} :
      f.body = none → Compiler.isBody (f.store.heap.identValue id) = false →
      Target f id (.global id) f
  | old {f : Front} {body : Body} {id : Ident} :
      f.body = some body → body.locals.contains id = true →
      Target f id (.slot (f.store.heap.identSlot id)) f
  | new {f f' : Front} {body : Body} {id : Ident} :
      f.body = some body → body.locals.contains id = false → Declared f id f' →
      Target f id (.slot (UInt8.ofNat body.locals.length)) f'

inductive Arguments : Front → Expr → List Expr → Front → Prop
  | last {f f₁ f₂ : Front} {e : Expr} :
      Expression f e f₁ → NoMark Symbol.comma f₁ f₂ → Arguments f e [] f₂
  | more {f f₁ f₂ f₃ : Front} {e e' : Expr} {es : List Expr} :
      Expression f e f₁ → Mark Symbol.comma f₁ f₂ → Arguments f₂ e' es f₃ →
      Arguments f e (e' :: es) f₃

inductive Operands : Front → List Expr → Front → Prop
  | none {f : Front} {c : Cursor} :
      f.cursor.atStatementEnd = (true, c) → Operands f [] (f.goto c)
  | some {f f' : Front} {c : Cursor} {e : Expr} {es : List Expr} :
      f.cursor.atStatementEnd = (false, c) → Arguments (f.goto c) e es f' →
      Operands f (e :: es) f'

/-- Names with commas between them, each to receive a line. -/
inductive Inputs : Front → List Place → Front → Prop
  | last {f f₁ f₂ f₃ : Front} {id : Ident} {p : Place} :
      Name f id f₁ → Target f₁ id p f₂ → NoMark Symbol.comma f₂ f₃ → Inputs f [p] f₃
  | more {f f₁ f₂ f₃ f₄ : Front} {id : Ident} {p : Place} {ps : List Place} :
      Name f id f₁ → Target f₁ id p f₂ → Mark Symbol.comma f₂ f₃ → Inputs f₃ ps f₄ →
      Inputs f (p :: ps) f₄

mutual

/-- A statement up to its semicolon. -/
inductive Statement : Front → Stmt → Front → Prop
  | assign {f f₁ f₂ f₃ f₄ : Front} {id : Ident} {p : Place} {e : Expr} :
      Name f id f₁ → Mark Symbol.equals f₁ f₂ → Expression f₂ e f₃ → Target f₃ id p f₄ →
      Statement f (.assign p e) f₄
  | perform {f f₁ f₂ f₃ : Front} {id : Ident} {es : List Expr} :
      Name f id f₁ → NoMark Symbol.equals f₁ f₂ → Operands f₂ es f₃ → es.length ≤ 255 →
      Statement f (.perform id es) f₃
  | print {f f₁ f₂ : Front} {es : List Expr} :
      Reserved ⟨.print, .listCommand⟩ f f₁ → Operands f₁ es f₂ → es.length ≤ 255 →
      Statement f (.print es) f₂
  | input {f f₁ f₂ : Front} {ps : List Place} :
      Reserved ⟨.input, .input⟩ f f₁ → Inputs f₁ ps f₂ → Statement f (.input ps) f₂
  | halt {f f₁ : Front} : Reserved ⟨.stop, .command⟩ f f₁ → Statement f .halt f₁
  | exitLoop {f f₁ : Front} : Reserved ⟨.wordBreak, .control⟩ f f₁ → Statement f .exitLoop f₁
  | returnValue {f f₁ f₂ : Front} {c : Cursor} {body : Body} {e : Expr} :
      Reserved ⟨.wordReturn, .control⟩ f f₁ → f₁.body = some body → body.isFunc = true →
      f₁.cursor.atStatementEnd = (false, c) → Expression (f₁.goto c) e f₂ →
      Statement f (.returnValue e) f₂
  | returnBare {f f₁ : Front} {c : Cursor} {body : Body} :
      Reserved ⟨.wordReturn, .control⟩ f f₁ → f₁.body = some body → body.isFunc = false →
      f₁.cursor.atStatementEnd = (true, c) → Statement f .returnBare (f₁.goto c)
  | ifThen {f f₁ f₂ f₃ f₄ f₅ : Front} {c : Expr} {a : Stmt} :
      Reserved ⟨.wordIf, .control⟩ f f₁ → Expression f₁ c f₂ → Mark Symbol.semicolon f₂ f₃ →
      Block f₃ a f₄ → Reserved ⟨.wordEndif, .control⟩ f₄ f₅ → Statement f (.ifThen c a) f₅
  | ifElse {f f₁ f₂ f₃ f₄ f₅ f₆ f₇ f₈ : Front} {c : Expr} {a b : Stmt} :
      Reserved ⟨.wordIf, .control⟩ f f₁ → Expression f₁ c f₂ → Mark Symbol.semicolon f₂ f₃ →
      Block f₃ a f₄ → Reserved ⟨.wordElse, .control⟩ f₄ f₅ → Mark Symbol.semicolon f₅ f₆ →
      Block f₆ b f₇ → Reserved ⟨.wordEndif, .control⟩ f₇ f₈ → Statement f (.ifElse c a b) f₈
  | whileDo {f f₁ f₂ f₃ f₄ f₅ : Front} {c : Expr} {a : Stmt} :
      Reserved ⟨.wordWhile, .control⟩ f f₁ → Expression f₁ c f₂ → Mark Symbol.semicolon f₂ f₃ →
      Block f₃ a f₄ → Reserved ⟨.wordWend, .control⟩ f₄ f₅ → Statement f (.whileDo c a) f₅
  | repeatUntil {f f₁ f₂ f₃ f₄ f₅ : Front} {c : Expr} {a : Stmt} :
      Reserved ⟨.wordRepeat, .control⟩ f f₁ → Mark Symbol.semicolon f₁ f₂ → Block f₂ a f₃ →
      Reserved ⟨.wordUntil, .control⟩ f₃ f₄ → Expression f₄ c f₅ →
      Statement f (.repeatUntil a c) f₅

inductive Block : Front → Stmt → Front → Prop
  | nil {f : Front} : Block f .skip f
  | snoc {f f₁ f₂ f₃ : Front} {a s : Stmt} :
      Block f a f₁ → Statement f₁ s f₂ → Mark Symbol.semicolon f₂ f₃ → Block f (.seq a s) f₃

end

/-! ### Definitions and programs -/

/-- A parameter: a name that is no parameter yet. -/
inductive Parameter : Front → Front → Prop
  | mk {f f₁ f₂ : Front} {id : Ident} {body : Body} :
      Name f id f₁ → f₁.body = some body → body.locals.contains id = false →
      Declared f₁ id f₂ → Parameter f f₂

inductive Parameters : Front → Front → Prop
  | last {f f₁ f₂ : Front} : Parameter f f₁ → NoMark Symbol.comma f₁ f₂ → Parameters f f₂
  | more {f f₁ f₂ f₃ : Front} :
      Parameter f f₁ → Mark Symbol.comma f₁ f₂ → Parameters f₂ f₃ → Parameters f f₃

inductive ParameterList : Front → Front → Prop
  | none {f f₁ f₂ : Front} :
      Mark Symbol.openParen f f₁ → Mark Symbol.closeParen f₁ f₂ → ParameterList f f₂
  | some {f f₁ f₂ f₃ f₄ : Front} :
      Mark Symbol.openParen f f₁ → NoMark Symbol.closeParen f₁ f₂ → Parameters f₂ f₃ →
      Mark Symbol.closeParen f₃ f₄ → ParameterList f f₄

def opener (isFunc : Bool) : Keyword := ⟨if isFunc then .wordFunc else .wordProc, .control⟩

/-- The first statement of a definition, up to its semicolon. The name must be new. -/
inductive Header (isFunc : Bool) (entry : UInt16) : Front → Body → Front → Prop
  | mk {f f₁ f₂ f₃ : Front} {id : Ident} {body : Body} :
      Reserved (opener isFunc) f f₁ → Name f₁ id f₂ → f₂.body = none →
      f₂.store.heap.identValue id = .unset →
      ParameterList (f₂.openBody id isFunc entry) f₃ → f₃.body = some body →
      Header isFunc entry f body (f₃.countParameters body)

/-- The statements of a program from its start on; definitions stand between them. The code of
a body begins behind the jump that leads around it. -/
inductive Items : Front → Stmt → Front → Prop
  | nil {f : Front} : Items f .skip f
  | statement {f f₁ f₂ f₃ : Front} {a s : Stmt} :
      Items f a f₁ → Statement f₁ s f₂ → Mark Symbol.semicolon f₂ f₃ → Items f (.seq a s) f₃
  | definition {f f₁ f₂ f₃ f₄ f₅ f₆ : Front} {a s : Stmt} {isFunc : Bool} {head body : Body} :
      Items f a f₁ → a.size + 3 ≤ 65535 →
      Header isFunc (UInt16.ofNat (a.size + 3)) f₁ head f₂ → Mark Symbol.semicolon f₂ f₃ →
      Block f₃ s f₄ → Reserved ⟨.wordEnd, .control⟩ f₄ f₅ → f₅.body = some body →
      Mark Symbol.semicolon (f₅.closeBody body) f₆ →
      Items f (.seq a (.define ⟨body.id, isFunc, head.locals.length, body.locals.length⟩ s)) f₆

def start (source : Source) (limits : Limits) : Front where
  cursor := .ofSource source
  store := .ofSize limits.heapSize limits.identBuckets
  body := none
  maxSlots := limits.maxSlots

/-- The whole text reads as the tree, and leaves the store. -/
def Reads (source : Source) (limits : Limits) (t : Stmt) (store : Store) : Prop :=
  ∃ f, Items (start source limits) t f ∧ f.cursor.atEnd.1 = true ∧ f.store = store

end Grammar

end CellScript
