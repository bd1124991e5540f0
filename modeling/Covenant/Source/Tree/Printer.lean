import Covenant.Source.Tree
import Covenant.Text.Quoted

/-!
# Syntax trees as text

Types and expressions in source form, as diagnostics show the construct they are about.
-/

namespace Covenant

namespace Source

namespace TypeRef

mutual
/-- **A type annotation in source form.** -/
def render : TypeRef → String
  | mk _ name arguments dimensions =>
    name ++ (if arguments.isEmpty then "" else "<" ++ ", ".intercalate (renderAll arguments) ++ ">")
      ++ String.join (List.replicate dimensions "[]")

/-- Several type annotations. -/
def renderAll : List TypeRef → List String
  | [] => []
  | t :: ts => t.render :: renderAll ts
end

end TypeRef

namespace Operator

/-- The spelling of an operator. -/
def symbol : Operator → String
  | or => "||"
  | and => "&&"
  | strictEq => "==="
  | strictNe => "!=="
  | eq => "=="
  | ne => "!="
  | le => "<="
  | ge => ">="
  | lt => "<"
  | gt => ">"
  | pow => "**"
  | add => "+"
  | sub => "-"
  | mul => "*"
  | div => "/"
  | mod => "%"

end Operator

namespace Sign

/-- The spelling of a sign. -/
def symbol : Sign → String
  | not => "!"
  | minus => "-"

end Sign

mutual
/-- **An expression in source form.** -/
def Expression.render : Expression → String
  | .chain _ value => value.render
  | .choice _ condition yes no =>
    condition.render ++ " ? " ++ yes.render ++ " : " ++ no.render

/-- An operator chain in source form. -/
def Chain.render : Chain → String
  | .mk _ first links => first.render ++ renderLinks links

/-- An operator and the operand behind it. -/
def Link.render : Link → String
  | .mk _ operator operand => " " ++ operator.symbol ++ " " ++ operand.render

/-- The rest of a chain. -/
def renderLinks : List Link → String
  | [] => ""
  | link :: links => link.render ++ renderLinks links

/-- A value behind its signs. -/
def Operand.render : Operand → String
  | .mk _ signs value => String.join (signs.map Sign.symbol) ++ value.render

/-- A primary with the steps behind it. -/
def Postfix.render : Postfix → String
  | .mk _ primary suffixes => primary.render ++ renderSuffixes suffixes

/-- One step behind a primary. -/
def Suffix.render : Suffix → String
  | .member _ name => "." ++ name
  | .index _ value => "[" ++ value.render ++ "]"
  | .call _ arguments => arguments.render

/-- The steps behind a primary. -/
def renderSuffixes : List Suffix → String
  | [] => ""
  | suffix :: suffixes => suffix.render ++ renderSuffixes suffixes

/-- Arguments in parentheses. -/
def Arguments.render : Arguments → String
  | .mk _ values => "(" ++ ", ".intercalate (renderExpressions values) ++ ")"

/-- Several expressions. -/
def renderExpressions : List Expression → List String
  | [] => []
  | e :: es => e.render :: renderExpressions es

/-- A primary in source form. -/
def Primary.render : Primary → String
  | .creation _ className arguments => "new " ++ className ++ arguments.render
  | .object _ fields => "\x7b " ++ ", ".intercalate (renderFields fields) ++ " \x7d"
  | .number _ literal => literal
  | .text _ value => Text.quote value
  | .truth _ value => if value then "true" else "false"
  | .this _ => "this"
  | .name _ name => name
  | .parens _ inner => "(" ++ inner.render ++ ")"

/-- A field of an object literal. -/
def ObjectField.render : ObjectField → String
  | .valued _ key value => key ++ ": " ++ value.render
  | .shorthand _ key => key

/-- Several fields. -/
def renderFields : List ObjectField → List String
  | [] => []
  | field :: fields => field.render :: renderFields fields
end

end Source

end Covenant
