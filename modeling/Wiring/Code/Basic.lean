import Wiring.Path.Basic

/-!
# Generated code

What a generated file says, without its layout: imports, and classes whose methods take no
parameters and return one expression.  Its text has one line for every import, field and statement;
members are indented by four spaces and their statements by eight.
-/

namespace Wiring.Code

inductive Expression where
  | this
  | identifier (name : String)
  | property (object : Expression) (name : String)
  | call (callee : Expression) (arguments : List Expression)
  | construct (className : String) (arguments : List Expression)
  | array (elements : List Expression)
  | await (inner : Expression)

namespace Expression

def thisProperty (name : String) : Expression :=
  .property .this name

def awaitIf (condition : Bool) (inner : Expression) : Expression :=
  if condition then .await inner else inner

end Expression

inductive Statement where
  | superCall
  | assign (target value : Expression)

inductive Visibility where
  | exposed
  | hidden
  deriving DecidableEq

structure Method where
  name : String
  visibility : Visibility
  isAsync : Bool
  body : Expression

structure MemberField where
  name : String
  visibility : Visibility
  deriving DecidableEq

inductive Member where
  | method (method : Method)
  | field (field : MemberField)
  | constructor (body : List Statement)

structure Class where
  name : String
  base : String
  members : List Member

structure Import where
  name : String
  specifier : String
  deriving DecidableEq

structure File where
  path : Path
  imports : List Import
  classes : List Class

namespace Class

def methods (c : Class) : List Method :=
  c.members.filterMap fun
    | .method method => some method
    | _ => none

def method? (c : Class) (name : String) : Option Method :=
  c.methods.find? (·.name == name)

def fields (c : Class) : List MemberField :=
  c.members.filterMap fun
    | .field field => some field
    | _ => none

def constructor? (c : Class) : Option (List Statement) :=
  c.members.findSome? fun
    | .constructor body => some body
    | _ => none

/-- The methods that only the class itself may call. -/
def hiddenMethods (c : Class) : List Method :=
  c.methods.filter (·.visibility = .hidden)

end Class

namespace Expression

mutual

def text : Expression → String
  | this => "this"
  | identifier name => name
  | property object name => text object ++ "." ++ name
  | call callee arguments => text callee ++ "(" ++ listText arguments ++ ")"
  | construct className arguments => "new " ++ className ++ "(" ++ listText arguments ++ ")"
  | array elements => "[" ++ listText elements ++ "]"
  | await inner => "await " ++ text inner

def listText : List Expression → String
  | [] => ""
  | [last] => text last
  | first :: second :: rest => text first ++ ", " ++ listText (second :: rest)

end

end Expression

def indent : String := "    "

def Visibility.text : Visibility → String
  | exposed => ""
  | hidden => "private "

def Statement.text : Statement → String
  | superCall => "super()"
  | assign target value => target.text ++ " = " ++ value.text

def Method.text (method : Method) : String :=
  indent ++ method.visibility.text ++ (if method.isAsync then "async " else "") ++ method.name ++
    "() \x7b\n" ++
    indent ++ indent ++ "return " ++ method.body.text ++ ";\n" ++
    indent ++ "\x7d\n"

def MemberField.text (field : MemberField) : String :=
  indent ++ field.visibility.text ++ field.name ++ ";\n"

def constructorText (body : List Statement) : String :=
  indent ++ "constructor() \x7b\n" ++
    String.join (body.map fun statement ↦ indent ++ indent ++ statement.text ++ ";\n") ++
    indent ++ "\x7d\n"

def Member.text : Member → String
  | .method declared => declared.text
  | .field declared => declared.text
  | .constructor body => constructorText body

def Class.text (c : Class) : String :=
  "export class " ++ c.name ++ " extends " ++ c.base ++ " \x7b\n" ++
    String.join (c.members.map Member.text) ++ "\x7d\n"

def Import.text (i : Import) : String :=
  "import \x7b " ++ i.name ++ " \x7d from \"" ++ i.specifier ++ "\";\n"

def File.text (file : File) : String :=
  String.join (file.imports.map Import.text) ++ String.join (file.classes.map Class.text)

end Wiring.Code
