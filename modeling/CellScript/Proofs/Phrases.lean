import CellScript.Proofs.Emission
import CellScript.Proofs.Vocabulary

/-!
Expressions as they are written.

A phrase is an expression with everything that can be seen of it in a text but the
blanks: its tokens are pieces of text, brackets that only group are kept, and
names are words. Precedence is a condition on the shape of a phrase: an operand of
a binary operator binds closer than the operator does, on the left at least as
close. Nothing here depends on how expressions are read.

A phrase is rendered by writing its tokens one after the other. Blanks may stand
before each token and behind the last, and where a token would absorb the byte
behind it, one has to stand there.

Resolving looks the names of a phrase up, in the order in which they are written,
and gives the tree whose postfix code is the code of the phrase.
-/

namespace CellScript

/-! ### Tokens -/

/-- A letter or underscore, then also digits. -/
def Ascii.isWord (bs : List UInt8) : Bool := bs.head?.any isWordStart && bs.all isWordByte

/-- The value of a text that is one numeral in range. -/
def Numeral.value? (text : List UInt8) : Option Number :=
  match scan text with
  | .integer t => if t = text then (int16? (Decimal.readInt text)).map .int else none
  | .decimal t => if t = text then some (.float (Decimal.read text).toHalf) else none
  | _ => none

namespace Phrase

/-- A word that is neither reserved nor a spelling of `not`. -/
structure Name where
  bytes : List UInt8
  isWord : Ascii.isWord bytes = true
  free : Keyword.lookup? bytes = none
  isOperand : bytes.map Ascii.toLower ≠ Ascii.bytes "not"

structure Function where
  bytes : List UInt8
  op : Opcode
  arity : Nat
  reserved : Keyword.lookup? bytes = some ⟨op, .function arity⟩

structure Constant where
  bytes : List UInt8
  value : Bool
  reserved : Keyword.lookup? bytes = some ⟨if value then .litTrue else .litFalse, .constant⟩

/-- A numeral in range, with its sign if it has one. -/
structure Numeral where
  text : List UInt8
  value : Number
  reads : Numeral.value? text = some value

/-- A string literal: the text between the quotes, the number of bytes it stands for and the last
of them. -/
structure Quoted where
  raw : List UInt8
  length : Nat
  last : UInt8
  closes : StringLiteral.scan 0 0 (raw ++ [34]) = .closed raw length last

/-- An operator of a table, in one of its spellings. -/
structure Sign (table : List Operator.Row) where
  text : List UInt8
  operator : Operator
  reads : Operator.match? table text = some (operator, text.length)

end Phrase

/-- A piece of text that the reader takes as a whole. -/
inductive Token where
  | word (bytes : List UInt8)
  | numeral (text : List UInt8)
  | quoted (raw : List UInt8)
  | symbol (b : UInt8)
  | unary (text : List UInt8)
  | binary (text : List UInt8)
  deriving DecidableEq

namespace Operator

/-- Whether a spelling is in letters. -/
def isSpelled (text : List UInt8) : Bool := text.head?.any Ascii.isLetter

/-- Whether the text of an operator goes on with a byte: letters do so with every byte of a word,
and some symbols begin others. -/
def goesOn (table : List Row) (text : List UInt8) (b : UInt8) : Bool :=
  if isSpelled text then Ascii.isWordByte b
  else table.any fun r => Ascii.bytes r.spelling == text ++ [b]

end Operator

namespace Token

def bytes : Token → List UInt8
  | word bs | numeral bs | unary bs | binary bs => bs
  | quoted raw => 34 :: raw ++ [34]
  | symbol b => [b]

/-- Whether the token merges with a byte that stands directly behind it. A word goes on with word
bytes, a numeral with digits and what else it still lacks, and a minus in front of an operand
becomes the sign of a numeral. -/
def absorbs : Token → UInt8 → Bool
  | word _, b => Ascii.isWordByte b
  | numeral text, b =>
    Ascii.isDigit b || (b == 101 && !text.contains 101) ||
      (b == 46 && !text.contains 101 && !text.contains 46)
  | quoted _, _ => false
  | symbol _, _ => false
  | unary text, b =>
    Operator.goesOn Operator.unary text b || (text == [45] && (Ascii.isDigit b || b == 46))
  | binary text, b => Operator.goesOn Operator.binary text b

def openParen : Token := symbol Symbol.openParen
def closeParen : Token := symbol Symbol.closeParen
def openBracket : Token := symbol Symbol.openBracket
def closeBracket : Token := symbol Symbol.closeBracket
def comma : Token := symbol Symbol.comma
def colon : Token := symbol Symbol.colon

end Token

/-- The text is the tokens with blanks between them, and with one at least where two tokens would
merge. -/
inductive Renders : List Token → List UInt8 → Prop
  | done {blanks : List UInt8} : blanks.all Ascii.isBlank = true → Renders [] blanks
  | token {t : Token} {ts : List Token} {blanks text : List UInt8} :
      blanks.all Ascii.isBlank = true → text.head?.all (fun b => !t.absorbs b) = true →
      Renders ts text → Renders (t :: ts) (blanks ++ t.bytes ++ text)

/-! ### Precedence -/

/-- How close an operator binds. The ones in front of an operand bind closest. Between operands,
products come before sums, then shifts, comparisons, equality, the operators on bits and those on
truth values. -/
def Opcode.binding : Opcode → Nat
  | .neg | .bnot | .lnot => 11
  | .mul | .div | .mod => 10
  | .add | .sub => 9
  | .asr | .lsr | .lsl => 8
  | .lt | .le | .gt | .ge => 7
  | .eq | .ne => 6
  | .band => 5
  | .bor | .beor => 4
  | .land => 3
  | .lor => 2
  | _ => 12

/-- The table of the operators between operands has the same precedences. -/
theorem Operator.prec_of_binary :
    ∀ o ∈ binary.map Row.operator, o.prec = o.op.binding ∧ o.op.binding ≤ 10 := by
  decide

theorem Operator.prec_of_unary :
    ∀ o ∈ unary.map Row.operator, o.prec = o.op.binding ∧ o.op.binding = 11 := by
  decide

namespace Phrase.Sign

def binding {table : List Operator.Row} (o : Sign table) : Nat := o.operator.op.binding

theorem prec_of_binary (o : Sign Operator.binary) :
    o.operator.prec = o.binding ∧ o.binding ≤ 10 :=
  Operator.prec_of_binary _ (Operator.mem_of_match? o.reads)

theorem prec_of_unary (o : Sign Operator.unary) : o.operator.prec = o.binding ∧ o.binding = 11 :=
  Operator.prec_of_unary _ (Operator.mem_of_match? o.reads)

end Phrase.Sign

/-! ### Phrases -/

mutual

inductive Phrase where
  | numeral (n : Phrase.Numeral)
  | quoted (q : Phrase.Quoted)
  | constant (w : Phrase.Constant)
  | variable (x : Phrase.Name) (suffixes : Suffixes)
  | call (x : Phrase.Name) (args : List Phrase)
  | builtin (f : Phrase.Function) (args : List Phrase)
  | group (e : Phrase)
  | array (elems : List Phrase)
  | unary (o : Phrase.Sign Operator.unary) (e : Phrase)
  | binary (o : Phrase.Sign Operator.binary) (a b : Phrase)

/-- Indices and ranges behind a variable. -/
inductive Suffixes where
  | none
  | index (i : Phrase) (more : Suffixes)
  | range (i j : Phrase) (more : Suffixes)

end

mutual

def Phrase.tokens : Phrase → List Token
  | .numeral n => [.numeral n.text]
  | .quoted q => [.quoted q.raw]
  | .constant w => [.word w.bytes]
  | .variable x suffixes => .word x.bytes :: suffixes.tokens
  | .call x args => .word x.bytes :: .openParen :: Phrase.listTokens args ++ [.closeParen]
  | .builtin f args => .word f.bytes :: .openParen :: Phrase.listTokens args ++ [.closeParen]
  | .group e => .openParen :: e.tokens ++ [.closeParen]
  | .array elems => .openBracket :: Phrase.listTokens elems ++ [.closeBracket]
  | .unary o e => .unary o.text :: e.tokens
  | .binary o a b => a.tokens ++ .binary o.text :: b.tokens

def Suffixes.tokens : Suffixes → List Token
  | .none => []
  | .index i more => .openBracket :: i.tokens ++ .closeBracket :: more.tokens
  | .range i j more =>
      .openBracket :: i.tokens ++ .colon :: j.tokens ++ .closeBracket :: more.tokens

def Phrase.listTokens : List Phrase → List Token
  | [] => []
  | e :: es => e.tokens ++ Phrase.moreTokens es

def Phrase.moreTokens : List Phrase → List Token
  | [] => []
  | e :: es => .comma :: e.tokens ++ Phrase.moreTokens es

end

namespace Phrase

/-- How close a phrase binds: as its operator does, and closer than any for an operand. -/
def level : Phrase → Nat
  | .unary o _ => o.binding
  | .binary o _ _ => o.binding
  | _ => 12

end Phrase

mutual

/-- Operators bind as their precedence says, binary ones to the left. A built-in function has the
arguments it takes, and a call has 255 at most. -/
def Phrase.Stratified : Phrase → Prop
  | .numeral _ | .quoted _ | .constant _ => True
  | .variable _ suffixes => suffixes.Stratified
  | .call _ args => args.length ≤ 255 ∧ Phrase.AllStratified args
  | .builtin f args => args.length = f.arity ∧ Phrase.AllStratified args
  | .group e => e.Stratified
  | .array elems => Phrase.AllStratified elems
  | .unary o e => o.binding ≤ e.level ∧ e.Stratified
  | .binary o a b => o.binding ≤ a.level ∧ o.binding < b.level ∧ a.Stratified ∧ b.Stratified

def Suffixes.Stratified : Suffixes → Prop
  | .none => True
  | .index i more => i.Stratified ∧ more.Stratified
  | .range i j more => i.Stratified ∧ j.Stratified ∧ more.Stratified

def Phrase.AllStratified : List Phrase → Prop
  | [] => True
  | e :: es => e.Stratified ∧ Phrase.AllStratified es

end

/-! ### Resolving names -/

/-- What a name stands for in a body, or outside of one. -/
def Place.ofName (body : Option Body) (h : Heap) (id : Ident) : Place :=
  match body with
  | some body => if body.locals.contains id then .slot (h.identSlot id) else .global id
  | none => .global id

/-- A string literal; a long one gets a record. -/
def Phrase.Quoted.resolve (q : Quoted) : EStateM Heap.Error Store Literal :=
  match q.length with
  | 0 => return .empty
  | 1 => return .char q.last
  | _ => do return .long (← Store.onHeap id (Heap.allocStr (StringLiteral.unescape q.raw)))

mutual

/-- The tree of a phrase. Names and long string literals that are new get records. -/
def Phrase.resolve (body : Option Body) : Phrase → EStateM Heap.Error Store Expr
  | .numeral n => return .literal (Grammar.literalOfNumber n.value)
  | .quoted q => do return .literal (← q.resolve)
  | .constant w => return .literal (.truth w.value)
  | .variable x suffixes => do
      let (id, _) ← Store.intern x.bytes
      suffixes.resolve body (.name (.ofName body (← get).heap id))
  | .call x args => do
      let (id, _) ← Store.intern x.bytes
      return .call id (← Phrase.resolveAll body args)
  | .builtin f args => do return .apply f.op (← Phrase.resolveAll body args)
  | .group e => e.resolve body
  | .array elems => do return .array (← Phrase.resolveAll body elems)
  | .unary o e => do return .apply o.operator.op [← e.resolve body]
  | .binary o a b => do
      let a ← a.resolve body
      let b ← b.resolve body
      return .apply o.operator.op [a, b]

def Suffixes.resolve (body : Option Body) : Suffixes → Expr → EStateM Heap.Error Store Expr
  | .none, e => return e
  | .index i more, e => do
      let i ← i.resolve body
      more.resolve body (.apply .index [e, i])
  | .range i j more, e => do
      let i ← i.resolve body
      let j ← j.resolve body
      more.resolve body (.apply .slice [e, i, j])

def Phrase.resolveAll (body : Option Body) : List Phrase → EStateM Heap.Error Store (List Expr)
  | [] => return []
  | e :: es => do
      let e ← e.resolve body
      return e :: (← Phrase.resolveAll body es)

end

end CellScript
