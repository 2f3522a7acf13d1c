import Picasso.Parsing.Ast
import Picasso.Parsing.State
import Picasso.Parsing.Tables

namespace Picasso.Parsing

open Lexing

variable {ν : Type}

/-- `strconv.ParseFloat` and `strconv.Unquote`. -/
structure Strconv (ν : Type) where
  parseFloat : Bytes → ν
  unquote : Bytes → Option Bytes

/-- What the handlers call back, and a bound on the rounds of their loops. -/
structure Calls (ν : Type) where
  strconv : Strconv ν
  fuel : Nat
  parseExpr : BindingPower → Parse (Expression ν)
  parseType : BindingPower → Parse TypeName
  parseStmt : Parse (Statement ν)
  parseIfStmt : Parse (Statement ν)

def panicAt {α : Type} (message : String) : Parse α := do stop (.parserError message (← currentLoc))

/-- `for p.hasTokens() && p.currentTokenKind() != close`. -/
def inside (close : TokenKind) : Parse Bool := do
  if ← hasTokens then return (← currentTokenKind) ≠ close else return false

def whileInside {α : Type} (close : TokenKind) (item : Parse α) : Nat → List α → Parse (List α)
  | 0, _ => stop .fuel
  | n + 1, acc => do
      if ← inside close then
        let a ← item
        whileInside close item n (acc ++ [a])
      else return acc

/-- `for p.currentTokenKind() == sep { p.move(); … }`. -/
def whileSep {α : Type} (sep : TokenKind) (item : Parse α) : Nat → List α → Parse (List α)
  | 0, _ => stop .fuel
  | n + 1, acc => do
      if (← currentTokenKind) = sep then
        let _ ← move
        let a ← item
        whileSep sep item n (acc ++ [a])
      else return acc

def accept (kind : TokenKind) : Parse Bool := do
  if (← currentTokenKind) = kind then
    let _ ← move
    return true
  else return false

def reserved : List Bytes :=
  ["thread", "fn", "void", "bool", "char", "string", "int8", "i8", "int16", "i16", "int32", "i32", "int64", "i64", "int",
    "uint8", "u8", "uint16", "u16", "uint32", "u32", "uint64", "u64", "uint", "float16", "f16", "float32",
    "f32", "float64",
    "f64", "atomic_int8", "atomic_int16", "atomic_int32", "atomic_int64", "atomic_uint8", "atomic_uint16",
    "atomic_uint32", "atomic_uint64", "ptr", "array", "slice", "map", "struct", "union", "enum"].map ascii

variable (c : Calls ν)

section Types

def joinDots (names : List Bytes) : Bytes := (ascii ".").intercalate names

def parseDotted : Parse Bytes := do
  let first ← expect .IDENTIFIER
  let names ← whileSep .DOT (do return (← expect .IDENTIFIER).value) c.fuel [first.value]
  return joinDots names

def parseTupleTypes : Parse TypeName := do
  let _ ← move
  let types ← whileInside .CLOSE_PAREN (do
    let t ← c.parseType .defaultBp
    if (← currentTokenKind) ≠ .CLOSE_PAREN then
      let _ ← expect .COMMA
    return t) c.fuel []
  let _ ← expect .CLOSE_PAREN
  match types with
  | [t] => return t
  | types => return .tuple false types

def typeNud : TypeNudHandler → Parse TypeName
  | .symbolType => do return .symbol false (← parseDotted c)
  | .listType => do
      let _ ← move
      let _ ← expect .CLOSE_BRACKET
      return .list false (← c.parseType .defaultBp)
  | .tupleType => parseTupleTypes c

/-- The table of type handlers to the right of a type is empty. -/
def parseTypeBody (bp : BindingPower) : Parse TypeName := do
  let tokenKind ← currentTokenKind
  match typeNudTable tokenKind with
  | none => stop (.message ("type: NUD Handler expected for token " ++ tokenKindString tokenKind ++ "\n"))
  | some nudFn => do
      let left ← typeNud c nudFn
      let tokenKind ← currentTokenKind
      if bp < typeBpTable tokenKind then
        stop (.message ("type: LED Handler expected for token " ++ tokenKindString tokenKind ++ "\n"))
      else return left

def parseAtomicType : Parse TypeName := do
  let atomic ← accept .ATOMIC
  let t ← c.parseType .defaultBp
  return if atomic then t.setAtomic else t

end Types

section Statements

def exprList (bp : BindingPower) : Parse (List (Expression ν)) := do
  let first ← c.parseExpr bp
  whileSep .COMMA (c.parseExpr bp) c.fuel [first]

def parseExpressionStmt : Parse (Statement ν) := do
  let firstExpr ← c.parseExpr .defaultBp
  match firstExpr with
  | .assignment .. => do
      let _ ← expect .SEMI_COLON
      return .expression (← currentLoc) firstExpr
  | _ => do
      if (← currentTokenKind) = .COMMA then
        let assignees ← whileSep .COMMA (c.parseExpr .assignment) c.fuel [firstExpr]
        if ← accept .ASSIGNMENT then
          let assignedValues ← exprList c .assignment
          let _ ← expect .SEMI_COLON
          let loc ← currentLoc
          return .expression loc (.assignment loc none none assignees assignedValues)
      let _ ← expect .SEMI_COLON
      return .expression (← currentLoc) firstExpr

def parseBlock : Parse (SourceLoc × List (Statement ν)) := do
  let _ ← expect .OPEN_CURLY
  let body ← whileInside .CLOSE_CURLY c.parseStmt c.fuel []
  let _ ← expect .CLOSE_CURLY
  return (← currentLoc, body)

def parseBlockStmt : Parse (Statement ν) := do
  let (loc, body) ← parseBlock c
  return .block loc body

def parseNextName : Parse (Bytes × Option TypeName) := do
  let nextName ← expect .IDENTIFIER
  if ← accept .COLON then return (nextName.value, some (← parseAtomicType c))
  else return (nextName.value, none)

def parseNames (first : Bytes) : Parse (List Bytes × List (Option TypeName)) := do
  if ← accept .COLON then
    let explicitType ← parseAtomicType c
    let names ← whileSep .COMMA (parseNextName c) c.fuel [(first, some explicitType)]
    return names.unzip
  else return ([first], [])

def checkReserved (names : List Bytes) : Parse Unit := do
  if names.any reserved.contains then panicAt "use of reserved keyword"

def parseVarDeclStmt : Parse (Statement ν) := do
  let _ ← expect .SAY
  let isInternal ← accept .INTERNAL
  let isStatic ← accept .STATIC
  let symbolName ← currentToken
  if (← currentTokenKind) ≠ .IDENTIFIER then panicAt "unexpected keyword in variable declaration"
  let _ ← move
  let (identifiers, explicitTypes) ← parseNames c symbolName.value
  let assignmentValues ← do
    if ← accept .ASSIGNMENT then exprList c .assignment
    else if explicitTypes.head?.join.isNone then stop (.message "Missing explicit type for variable declaration.")
    else pure []
  let _ ← expect .SEMI_COLON
  checkReserved identifiers
  let loc ← currentLoc
  match identifiers with
  | [identifier] =>
    return .variableDeclaration loc identifier assignmentValues.head? explicitTypes.head?.join isStatic isInternal
  | identifiers => return .variableDeclarations loc identifiers explicitTypes assignmentValues isStatic isInternal

def parseParam : Parse Parameter := do
  let paramName ← expect .IDENTIFIER
  let _ ← expect .COLON
  let paramType ← parseAtomicType c
  if ¬ (← currentToken).isOneOfMany [.CLOSE_PAREN, .EOF] then
    let _ ← expect .COMMA
  return ⟨paramName.value, paramType⟩

def parseFnParamsAndBody : Parse (List Parameter × Option TypeName × List (Statement ν)) := do
  let _ ← expect .OPEN_PAREN
  let functionParams ← whileInside .CLOSE_PAREN (parseParam c) c.fuel []
  let _ ← expect .CLOSE_PAREN
  let returnType ← do
    if ← accept .COLON then pure (some (← c.parseType .defaultBp)) else pure none
  let (_, functionBody) ← parseBlock c
  return (functionParams, returnType, functionBody)

def fnv32a (s : Bytes) : UInt32 := s.foldl (fun h b => (h ^^^ b.toUInt32) * 16777619) 2166136261

def funcHash (params : List Parameter) (ret : Option TypeName) : UInt32 :=
  fnv32a ((ret.elim [] TypeName.get) ++ params.flatMap fun i => i.type.get)

def parseFuncDeclaration : Parse (Statement ν) := do
  let _ ← move
  let startToken ← move
  let isInternal := startToken.kind = .INTERNAL
  let startToken ← if isInternal then move else pure startToken
  let isStatic := startToken.kind = .STATIC
  let functionName ←
    if isStatic then do pure (← expect .IDENTIFIER).value
    else if startToken.kind = .IDENTIFIER then pure startToken.value
    else panicAt "unexpected keyword after fn"
  let (functionParams, returnType, functionBody) ← parseFnParamsAndBody c
  checkReserved [functionName]
  return .functionDefinition (← currentLoc) functionParams functionName functionBody (funcHash functionParams returnType)
    returnType isStatic isInternal

def parseIfStmtBody : Parse (Statement ν) := do
  let _ ← move
  let condition ← c.parseExpr .assignment
  let consequent ← parseBlockStmt c
  let alternate ← do
    if ← accept .ELSE then
      if (← currentTokenKind) = .IF then pure (some (← c.parseIfStmt)) else pure (some (← parseBlockStmt c))
    else pure none
  return .ifStatement (← currentLoc) condition consequent alternate

def replaceSlashes (name : Bytes) : Bytes := name.map fun b => if b = 47 then 46 else b

/-- The name without its quotes, and its last component. -/
def parseImportStmt : Parse (Statement ν) := do
  let _ ← move
  let quoted ← expect .STRING
  if quoted.value.length < 2 then stop .sliceOutOfRange
  let importName := (replaceSlashes quoted.value).tail.dropLast
  let importAlias ← do
    if ← accept .AS then pure (← expect .IDENTIFIER).value
    else pure ((importName.splitOn 46).getLastD [])
  let _ ← expect .SEMI_COLON
  return .importStatement (← currentLoc) importName importAlias

def parseForeachStmt : Parse (Statement ν) := do
  let _ ← move
  let valueName ← expect .IDENTIFIER
  let index ← accept .COMMA
  if index then
    let _ ← expect .IDENTIFIER
  let _ ← expect .IN
  let iterable ← c.parseExpr .defaultBp
  let (_, body) ← parseBlock c
  return .foreachStatement (← currentLoc) valueName.value index iterable body

def parseWhileStmt : Parse (Statement ν) := do
  let _ ← move
  let condition ← c.parseExpr .assignment
  let (_, body) ← parseBlock c
  return .whileStatement (← currentLoc) condition body

def parseClassDeclStmt : Parse (Statement ν) := do
  let _ ← move
  let isInternal ← accept .INTERNAL
  let className ← expect .IDENTIFIER
  let implements ← do
    if ← accept .COLON then parseDotted c else pure []
  let (_, body) ← parseBlock c
  return .classDeclaration (← currentLoc) className.value body implements isInternal

def parseInterfaceDeclStmt : Parse (Statement ν) := do
  let _ ← move
  let interfaceName ← expect .IDENTIFIER
  let (_, body) ← parseBlock c
  return .interfaceDeclaration (← currentLoc) interfaceName.value body

def parseFuncReturnStmt : Parse (Statement ν) := do
  let _ ← expect .RETURN
  if ← accept .NULL then
    let _ ← expect .SEMI_COLON
    return .returnStatement (← currentLoc) none [] false
  else if ← accept .SEMI_COLON then return .returnStatement (← currentLoc) none [] true
  else
    let values ← exprList c .assignment
    let _ ← expect .SEMI_COLON
    let loc ← currentLoc
    match values with
    | [value] => return .returnStatement loc (some (loc, value)) [] false
    | values => return .returnStatement loc none values false

def parseBreakStmt : Parse (Statement ν) := do
  let _ ← expect .BREAK
  let _ ← expect .SEMI_COLON
  return .breakStatement (← currentLoc)

def parseAtomicBlockStmt : Parse (Statement ν) := do
  let _ ← expect .OPEN_ATOMIC
  let body ← whileInside .CLOSE_ATOMIC c.parseStmt c.fuel []
  let _ ← expect .CLOSE_ATOMIC
  return .atomicBlock (← currentLoc) body

def statementHandler : StatementHandler → Parse (Statement ν)
  | .parseBlockStmt => parseBlockStmt c
  | .parseVarDeclStmt => parseVarDeclStmt c
  | .parseFuncDeclaration => parseFuncDeclaration c
  | .parseIfStmt => c.parseIfStmt
  | .parseImportStmt => parseImportStmt
  | .parseForeachStmt => parseForeachStmt c
  | .parseWhileStmt => parseWhileStmt c
  | .parseClassDeclStmt => parseClassDeclStmt c
  | .parseInterfaceDeclStmt => parseInterfaceDeclStmt c
  | .parseFuncReturnStmt => parseFuncReturnStmt c
  | .parseBreakStmt => parseBreakStmt
  | .parseAtomicBlockStmt => parseAtomicBlockStmt c

def parseStmtBody : Parse (Statement ν) := do
  match tables.statement (← currentTokenKind) with
  | some stmtFn => statementHandler c stmtFn
  | none => parseExpressionStmt c

end Statements

section Expressions

def parsePrefixExpr : Parse (Expression ν) := do
  let operatorToken ← move
  let expr ← c.parseExpr .unary
  return .prefixed (← currentLoc) operatorToken expr

def parseAssignmentExpr (left : Expression ν) (bp : BindingPower) : Parse (Expression ν) := do
  let _ ← move
  let assignedValues ← exprList c bp
  let loc ← currentLoc
  match assignedValues with
  | [value] => return .assignment loc (some left) (some value) [] []
  | values => return .assignment loc none none [left] values

def parseRangeExpr (left : Expression ν) (bp : BindingPower) : Parse (Expression ν) := do
  let _ ← move
  let loc ← currentLoc
  return .range loc left (← c.parseExpr bp)

def parseBinaryExpr (left : Expression ν) : Parse (Expression ν) := do
  let operatorToken ← move
  let right ← c.parseExpr (tables.bp operatorToken.kind - 1)
  return .binary (← currentLoc) left operatorToken right

def parsePrimaryExpr : Parse (Expression ν) := do
  let kind ← currentTokenKind
  match kind with
  | .NUMBER => do
      let number := c.strconv.parseFloat (← move).value
      return .number (← currentLoc) number
  | .STRING => do
      let str := (← move).value
      match c.strconv.unquote str with
      | none => stop (.message ("unexpected str format " ++ String.ofList (str.map fun b => Char.ofNat b.toNat)))
      | some unescaped => return .string (← currentLoc) unescaped
  | .IDENTIFIER => do
      let loc ← currentLoc
      return .symbol loc (← move).value
  | kind => stop (.message ("Cannot create primary_expr from " ++ tokenKindString kind ++ "\n"))

/-- `for { if … == CLOSE_BRACKET { break }; p.expect(COMMA); … }`. -/
def parseIndices (bp : BindingPower) : Nat → List (Expression ν) → Parse (List (Expression ν))
  | 0, _ => stop .fuel
  | n + 1, rhsList => do
      if (← currentTokenKind) = .CLOSE_BRACKET then return rhsList
      else
        let _ ← expect .COMMA
        let e ← c.parseExpr bp
        parseIndices bp n (rhsList ++ [e])

def parseMemberExpr (left : Expression ν) (bp : BindingPower) : Parse (Expression ν) := do
  if (← move).kind = .OPEN_BRACKET then
    let first ← c.parseExpr bp
    let rhsList ← parseIndices c bp c.fuel [first]
    let _ ← expect .CLOSE_BRACKET
    return .computed (← currentLoc) left rhsList
  else
    let loc ← currentLoc
    return .member loc left (← expect .IDENTIFIER).value

/-- An element of a bracketed list, with the comma that separates it from the next one. -/
def parseElement (bp : BindingPower) (close : TokenKind) : Parse (Expression ν) := do
  let e ← c.parseExpr bp
  if ¬ (← currentToken).isOneOfMany [.EOF, close] then
    let _ ← expect .COMMA
  return e

def parseArrayLiteralExpr : Parse (Expression ν) := do
  let _ ← expect .OPEN_BRACKET
  let arrayContents ← whileInside .CLOSE_BRACKET (parseElement c .logical .CLOSE_BRACKET) c.fuel []
  let _ ← expect .CLOSE_BRACKET
  return .list (← currentLoc) arrayContents

def parseGroupingExpr : Parse (Expression ν) := do
  let _ ← expect .OPEN_PAREN
  let expr ← c.parseExpr .defaultBp
  let _ ← expect .CLOSE_PAREN
  return expr

def parseNullExpr : Parse (Expression ν) := do
  let _ ← expect .NULL
  return .null (← currentLoc)

def parseCallExpr (left : Expression ν) : Parse (Expression ν) := do
  let _ ← move
  let arguments ← whileInside .CLOSE_PAREN (parseElement c .assignment .CLOSE_PAREN) c.fuel []
  let _ ← expect .CLOSE_PAREN
  return .call (← currentLoc) left arguments

def parseFuncExpr : Parse (Expression ν) := do
  let _ ← expect .FN
  let (functionParams, returnType, functionBody) ← parseFnParamsAndBody c
  return .function (← currentLoc) functionParams functionBody returnType

def parseNewExpr : Parse (Expression ν) := do
  let _ ← move
  match ← c.parseExpr .defaultBp with
  | .call loc method arguments => return .new loc method arguments
  | _ => stop (.message "Expected *reflect.rtype but instead recived *reflect.rtype inside ExpectType[T](r)\n")

def nudHandler : NudHandler → Parse (Expression ν)
  | .parsePrimaryExpr => parsePrimaryExpr c
  | .parsePrefixExpr => parsePrefixExpr c
  | .parseArrayLiteralExpr => parseArrayLiteralExpr c
  | .parseNullExpr => parseNullExpr
  | .parseGroupingExpr => parseGroupingExpr c
  | .parseFuncExpr => parseFuncExpr c
  | .parseNewExpr => parseNewExpr c

def ledHandler (left : Expression ν) (bp : BindingPower) : LedHandler → Parse (Expression ν)
  | .parseAssignmentExpr => parseAssignmentExpr c left bp
  | .parseBinaryExpr => parseBinaryExpr c left
  | .parseRangeExpr => parseRangeExpr c left bp
  | .parseMemberExpr => parseMemberExpr c left bp
  | .parseCallExpr => parseCallExpr c left

def extend (bp : BindingPower) : Nat → Expression ν → Parse (Expression ν)
  | 0, _ => stop .fuel
  | n + 1, left => do
      let tokenKind ← currentTokenKind
      if bp < tables.bp tokenKind then
        match tables.led tokenKind with
        | none => panicAt ("Unrecognized " ++ tokenKindString tokenKind ++ "\n")
        | some ledFn => do extend bp n (← ledHandler c left bp ledFn)
      else return left

def parseExprBody (bp : BindingPower) : Parse (Expression ν) := do
  let tokenKind ← currentTokenKind
  match tables.nud tokenKind with
  | none => panicAt ("Unrecognized " ++ tokenKindString tokenKind ++ "\n")
  | some nudFn => do extend c bp c.fuel (← nudHandler c nudFn)

end Expressions

/-- The parse functions, with a bound on the depth of their recursion and on
the rounds of each loop. -/
def calls (strconv : Strconv ν) : Nat → Calls ν
  | 0 => ⟨strconv, 0, fun _ => stop .fuel, fun _ => stop .fuel, stop .fuel, stop .fuel⟩
  | n + 1 =>
    let c := calls strconv n
    ⟨strconv, n + 1, parseExprBody c, parseTypeBody c, parseStmtBody c, parseIfStmtBody c⟩

def parseExpr (strconv : Strconv ν) (n : Nat) (bp : BindingPower) : Parse (Expression ν) :=
  (calls strconv n).parseExpr bp

end Picasso.Parsing
