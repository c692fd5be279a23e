import GraphSelect.Schema.BuiltIn
import GraphSelect.Schema.Basic
import GraphSelect.Schema.Problem

/-!
# Validation

The rules that a schema must keep, each as a list of the problems that break it: names and references, what may stand
where, directives and the values given to them, the promises of interfaces, and input objects that can be given at
all. A schema is valid if `Schema.problems` is empty; as every list is put together from the lists of its parts,
validity is validity of each part.
-/

namespace GraphSelect.Schema

/-- A problem at a position, if a condition holds. -/
def problemIf (condition : Bool) (position : Nat) (problem : Problem) : List Diagnostic :=
  if condition then [⟨problem, some position⟩] else []

/-- Whether a name is kept for the language itself. -/
def isReserved (name : String) : Bool :=
  match name.toList with
  | '_' :: '_' :: _ => true
  | _ => false

/-! ## Values given to directives -/

/-- Whether a type is a scalar that the schema defines itself; every value fits it. -/
def isOwnScalar (t : TypeDefinition) : Bool :=
  t.body.sort = .scalar && !(BuiltIn.scalars.contains t.name)

/-- Whether a number without fraction fits in 32 bits. -/
def fitsInt (text : String) : Bool :=
  match text.toInt? with
  | some n => -0x80000000 ≤ n && n < 0x80000000
  | none => false

/-- Whether a value that is neither a list nor an object nor null fits a type that is not a list. -/
def fitsPlain (t : TypeDefinition) (value : Literal) : Bool :=
  match t.body, value with
  | .scalar, .int text =>
    isOwnScalar t || t.name = "ID" || t.name = "Float" || (t.name = "Int" && fitsInt text)
  | .scalar, .float _ => isOwnScalar t || t.name = "Float"
  | .scalar, .string _ => isOwnScalar t || t.name = "String" || t.name = "ID"
  | .scalar, .bool _ => isOwnScalar t || t.name = "Boolean"
  | .scalar, _ => isOwnScalar t
  | .enum _, .enum _ => true
  | _, _ => false

/-- The problem of an enum value that its type does not have. -/
def enumProblems (t : TypeDefinition) (value : Literal) : List Problem :=
  match t.body, value with
  | .enum values, .enum name =>
    if values.any (·.name = name) then [] else [.unknownEnumValue t.name name]
  | _, _ => []

/-- The required fields of an input object that a value does not give. -/
def missingFields (type : String) (declared : List InputValue) (given : List (String × Literal)) : List Problem :=
  declared.filterMap fun f =>
    if f.isRequired && (given.lookup f.name).all Literal.isNull then some (.missingInputField type f.name) else none

mutual

/-- What is wrong with a value of a type. A single value stands for a list of one. -/
def literalProblems (s : Schema) (type : TypeRef) : Literal → List Problem
  | .null => if type.isNonNull then [.unfitLiteral type .null] else []
  | .list items =>
    match s.type? type.base with
    | none => []
    | some t =>
      if type.isList || isOwnScalar t then itemProblems s type.item items else [.unfitLiteral type (.list items)]
  | .object given =>
    match s.type? type.base with
    | none => []
    | some t =>
      match t.body with
      | .input declared => givenProblems s t.name declared given ++ missingFields t.name declared given
      | _ => if isOwnScalar t then [] else [.unfitLiteral type (.object given)]
  | value =>
    match s.type? type.base with
    | none => []
    | some t => if fitsPlain t value then enumProblems t value else [.unfitLiteral type value]

/-- What is wrong with the items of a list. -/
def itemProblems (s : Schema) (type : TypeRef) : List Literal → List Problem
  | [] => []
  | item :: items => literalProblems s type item ++ itemProblems s type items

/-- What is wrong with the fields that a value of an input object gives. -/
def givenProblems (s : Schema) (type : String) (declared : List InputValue) : List (String × Literal) → List Problem
  | [] => []
  | (name, value) :: given =>
    (match declared.find? (·.name = name) with
      | some f => literalProblems s f.type value
      | none => [.unknownInputField type name]) ++ givenProblems s type declared given

end

/-! ## Directives -/

/-- The problems of names that come again, in order. -/
def repeatedNames (problem : String → Problem) : List String → List (String × Nat) → List Diagnostic
  | _, [] => []
  | seen, (name, position) :: rest =>
    problemIf (seen.contains name) position (problem name) ++ repeatedNames problem (name :: seen) rest

/-- The problems of the arguments that a directive is used with. -/
def givenArgumentProblems (s : Schema) (definition : DirectiveDefinition) (d : Directive) : List Diagnostic :=
  d.arguments.flatMap fun a =>
    match definition.arguments.find? (·.name = a.name) with
    | some v => (s.literalProblems v.type a.value).map fun p => ⟨p, some a.position⟩
    | none => [⟨.unknownArgument d.name a.name, some a.position⟩]

/-- The problems of required arguments that a directive is used without. -/
def missingArgumentProblems (definition : DirectiveDefinition) (d : Directive) : List Diagnostic :=
  definition.arguments.flatMap fun v =>
    let given? := (d.arguments.find? (·.name = v.name)).map (·.value)
    problemIf (v.isRequired && given?.all Literal.isNull) d.position (.missingArgument d.name v.name)

/-- The problems of one use of a directive. -/
def directiveProblems (s : Schema) (place : DirectivePlace) (isRepeated : Bool) (d : Directive) : List Diagnostic :=
  repeatedNames .repeatedGivenArgument [] (d.arguments.map fun a => (a.name, a.position)) ++
    match s.directive? d.name with
    | none => [⟨.undefinedDirective d.name, some d.position⟩]
    | some definition =>
      problemIf (isRepeated && !definition.isRepeatable) d.position (.repeatedDirective d.name)
        ++ problemIf (!definition.places.contains place) d.position (.misplacedDirective d.name place)
        ++ s.givenArgumentProblems definition d ++ missingArgumentProblems definition d

/-- The problems of the directives used at one place, after those with the names `seen`. -/
def directivesProblemsFrom (s : Schema) (place : DirectivePlace) : List String → List Directive → List Diagnostic
  | _, [] => []
  | seen, d :: ds =>
    s.directiveProblems place (seen.contains d.name) d ++ directivesProblemsFrom s place (d.name :: seen) ds

/-- The problems of the directives used at one place. -/
def directivesProblems (s : Schema) (place : DirectivePlace) (ds : List Directive) : List Diagnostic :=
  s.directivesProblemsFrom place [] ds

/-! ## Fields and arguments -/

/-- Whether a value of a type can be given. -/
def isInputBody : TypeBody → Bool
  | .scalar => true
  | .enum _ => true
  | .input _ => true
  | _ => false

/-- The problems of the definition of an argument or input field. -/
def inputValueProblems (s : Schema) (part : NamedPart) (place : DirectivePlace) (v : InputValue) :
    List Diagnostic :=
  problemIf (isReserved v.name) v.position (.reservedPart part v.name) ++ s.directivesProblems place v.directives ++
    match s.type? v.type.base with
    | none => [⟨.undefinedType v.type.base, some v.typePosition⟩]
    | some t => problemIf (!isInputBody t.body) v.position (.notAnInputType v.name)

/-- The problems of the definitions of arguments. -/
def argumentsProblems (s : Schema) (vs : List InputValue) : List Diagnostic :=
  vs.flatMap (s.inputValueProblems .argument .argumentDefinition)
    ++ repeatedNames .repeatedArgument [] (vs.map fun v => (v.name, v.position))

/-- The problems of the definition of a field. -/
def fieldProblems (s : Schema) (f : Field) : List Diagnostic :=
  problemIf (isReserved f.name) f.position (.reservedPart .field f.name)
    ++ s.directivesProblems .fieldDefinition f.directives ++ s.argumentsProblems f.arguments ++
    match s.type? f.type.base with
    | none => [⟨.undefinedType f.type.base, some f.typePosition⟩]
    | some t => problemIf t.body.kind?.isNone f.position (.notAnOutputType f.name)

/-! ## Interfaces -/

/-- Whether a value of one named type is always one of another. -/
def isSubtype (s : Schema) (sub super : String) : Bool :=
  sub = super || (s.members super).contains sub || (s.type? sub).any (·.implements super)

/-- Whether a field of one type can stand where a field of another is promised: it is as strict about null, a list
where a list is promised, and of a type that is always the promised one. -/
def isCovariant (s : Schema) : TypeRef → TypeRef → Bool
  | .named a n, .named b m => (n || !m) && s.isSubtype a b
  | .list a n, .list b m => (n || !m) && s.isCovariant a b
  | _, _ => false

/-- The problems of the arguments of a field that an interface promises. -/
def promisedArgumentProblems (type interface : String) (promised given : Field) : List Diagnostic :=
  (promised.arguments.flatMap fun v =>
    match given.arguments.find? (·.name = v.name) with
    | none => [⟨.interfaceArgumentMissing type interface given.name v.name, some given.position⟩]
    | some w =>
      problemIf (w.type ≠ v.type) w.position
        (.interfaceArgumentType type interface given.name v.name v.type w.type)) ++
  given.arguments.flatMap fun w =>
    problemIf (w.isRequired && !(promised.arguments.any (·.name = w.name))) w.position
      (.extraRequiredArgument type interface given.name w.name)

/-- The problems of a field that an interface promises, in a type with the given fields. -/
def promisedFieldProblems (s : Schema) (t : TypeDefinition) (interface : String) (promised : Field) :
    List Diagnostic :=
  match t.body.fields.find? (·.name = promised.name) with
  | none => [⟨.interfaceFieldMissing t.name interface promised.name, some t.position⟩]
  | some given =>
    problemIf (!s.isCovariant given.type promised.type) given.position
        (.interfaceFieldType t.name interface promised.name promised.type given.type)
      ++ promisedArgumentProblems t.name interface promised given

/-- The definition of an interface. -/
def interface? (s : Schema) (name : String) : Option TypeDefinition :=
  (s.type? name).filter fun t => t.body.sort = .interface

/-- The problems of one interface that a type implements: it must be an interface, and the type must implement its
interfaces and have its fields too. -/
def implementationProblems (s : Schema) (t : TypeDefinition) (m : Mention) : List Diagnostic :=
  match s.interface? m.name with
  | none => [⟨.undefinedType m.name, some m.position⟩]
  | some i =>
    (i.body.interfaces.flatMap fun n =>
      problemIf (!t.implements n.name) t.position (.interfaceOfInterfaceMissing t.name m.name n.name))
      ++ i.body.fields.flatMap (s.promisedFieldProblems t m.name)

/-! ## Input objects -/

/-- The input object that a field requires: a named one that excludes null. -/
def requiredInput? (s : Schema) (v : InputValue) : Option String :=
  match v.type with
  | .named name true => if (s.type? name).any (·.body.sort = .input) then some name else none
  | _ => none

/-- The fields of an input object. -/
def inputFields (s : Schema) (name : String) : List InputValue :=
  ((s.body? name).map TypeBody.inputFields).getD []

/-- How many input objects may require each other in a row. -/
def inputChainLimit : Nat := 32

/-- The problem of the input objects that `name` requires, of which `more` may still follow: one of them is the first
of the row again, or there are too many. Those on the way are `seen`. -/
def chainProblem? (s : Schema) (first : String) : Nat → List String → String → Option Problem
  | 0, seen, name =>
    (s.inputFields name).findSome? fun v =>
      (s.requiredInput? v).bind fun next =>
        if next ∈ seen then (if next = first then some (.inputRequiresItself first) else none)
        else some (.inputTooDeep first)
  | more + 1, seen, name =>
    (s.inputFields name).findSome? fun v =>
      (s.requiredInput? v).bind fun next =>
        if next ∈ seen then (if next = first then some (.inputRequiresItself first) else none)
        else s.chainProblem? first more (next :: seen) next

/-- The problem of an input object that requires itself or too many others. -/
def inputChainProblems (s : Schema) (t : TypeDefinition) : List Diagnostic :=
  ((s.chainProblem? t.name (inputChainLimit - 1) [t.name] t.name).map fun p => ⟨p, some t.position⟩).toList

/-! ## Types -/

/-- Where the directives of a type are used. -/
def placeOf : TypeSort → DirectivePlace
  | .scalar => .scalar
  | .object => .object
  | .interface => .interface
  | .union => .union
  | .enum => .enum
  | .input => .inputObject

/-- The problems of the parts of a type. -/
def bodyProblems (s : Schema) (t : TypeDefinition) : List Diagnostic :=
  let emptyIf (isEmpty : Bool) := problemIf isEmpty t.position (.emptyType t.body.sort t.name)
  match t.body with
  | .scalar => []
  | .object interfaces fields =>
    emptyIf fields.isEmpty ++ fields.flatMap s.fieldProblems ++ interfaces.flatMap (s.implementationProblems t)
  | .interface interfaces fields =>
    emptyIf fields.isEmpty ++ fields.flatMap s.fieldProblems ++ interfaces.flatMap (s.implementationProblems t)
      ++ interfaces.flatMap fun m => problemIf (m.name = t.name) t.position (.interfaceOfItself t.name)
  | .union members =>
    emptyIf members.isEmpty ++ members.flatMap fun m =>
      match s.type? m.name with
      | none => [⟨.undefinedType m.name, some m.position⟩]
      | some member => problemIf (!member.body.isObject) m.position (.memberNotAnObject m.name)
  | .enum values =>
    emptyIf values.isEmpty ++ values.flatMap fun v =>
      problemIf (isReserved v.name) v.position (.reservedPart .enumValue v.name)
        ++ s.directivesProblems .enumValue v.directives
  | .input fields =>
    emptyIf fields.isEmpty ++ fields.flatMap (s.inputValueProblems .inputField .inputFieldDefinition)
      ++ s.inputChainProblems t

/-- Whether a type is one of those that describe a schema. -/
def isIntrospection (t : TypeDefinition) : Bool := BuiltIn.introspection.any (·.name = t.name)

/-- The problems of the definition of a type. -/
def typeProblems (s : Schema) (t : TypeDefinition) : List Diagnostic :=
  problemIf (isReserved t.name && !isIntrospection t) t.position (.reservedType t.body.sort t.name)
    ++ s.directivesProblems (placeOf t.body.sort) t.directives ++ s.bodyProblems t

/-- The problems of the definition of a directive. -/
def directiveDefinitionProblems (s : Schema) (d : DirectiveDefinition) : List Diagnostic :=
  problemIf (isReserved d.name) d.position (.reservedPart .directive d.name) ++ s.argumentsProblems d.arguments

/-! ## Roots -/

/-- The problem of a root type that is not an object type of the schema. -/
def rootProblems (s : Schema) (r : RootMention) : List Diagnostic :=
  match s.type? r.type.name with
  | none => [⟨.undefinedType r.type.name, some r.type.position⟩]
  | some t => problemIf (!t.body.isObject) r.type.position (.rootNotAnObject r.type.name)

/-- The problem of a schema without a root for queries. -/
def queryProblems (s : Schema) : List Diagnostic :=
  if (s.root? .query).isSome then [] else [⟨.missingQueryRoot, s.rootPosition?⟩]

/-- The problems of the roots of a schema. -/
def rootsProblems (s : Schema) : List Diagnostic :=
  s.queryProblems ++ s.roots.flatMap s.rootProblems
    ++ repeatedNames .sharedRoot [] (s.roots.map fun r => (r.type.name, r.type.position))
    ++ s.directivesProblems .schema s.rootDirectives

/-! ## Whole schemas -/

/-- Every problem of a schema. -/
def problems (s : Schema) : List Diagnostic :=
  s.rootsProblems ++ s.directives.flatMap s.directiveDefinitionProblems ++ s.types.flatMap s.typeProblems

end GraphSelect.Schema
