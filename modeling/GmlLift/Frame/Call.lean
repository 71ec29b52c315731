import GmlLift.Frame.Variable

/-! Calls, with those that stand for syntax of the language. -/

namespace GmlLift

namespace Call

def newArray : String := "@@NewGMLArray@@"
def newObject : String := "@@NewGMLObject@@"
def throwValue : String := "@@throw@@"
def method : String := "method"
/-- Marks the entry of a struct literal. -/
def structMark : String := "___struct___"

/-- Whether the pattern occurs in the text. -/
def occursIn (pattern : List Char) : List Char → Bool
  | [] => pattern.isEmpty
  | c :: rest => pattern.isPrefixOf (c :: rest) || occursIn pattern rest

/-- Put the values passed to a struct literal in the place of its arguments. -/
def substitute (args : List Expr) (e : Expr) : Expr :=
  e.mapUp fun x => match (x.var?.bind fun v => argumentIndex? v.name).bind (args[·]?) with
    | some arg => arg
    | none => x

/-- The fields of a struct literal whose body is plain assignments. -/
def structFields? (args : List Expr) : List Stmt → Option (List (String × Expr))
  | [] => some []
  | .assign target value .normal _ :: rest =>
    (structFields? args rest).map ((target.name, substitute args value) :: ·)
  | _ :: _ => none

/-- The expression that `new` makes from a constructor and its arguments. -/
def construct (maker : Expr) (args : List Expr) : ExprKind :=
  let fields? := match maker.kind with
    | .function decl =>
      if occursIn structMark.toList decl.entry.toList then structFields? args decl.body else none
    | _ => none
  match fields? with
  | some fields => .struct fields
  | none => .new maker args

/-- The expression that a call stands for. Binding a function to an instance gives the function
itself. -/
def expr (function : String) (args : List Expr) : Expr :=
  let plain : Expr := .ofKind (.call function args) .var
  if function = newArray then .ofKind (.array args) .var
  else if function = newObject then match args with
    | maker :: rest => .ofKind (construct maker rest) .var
    | [] => plain
  else if function = throwValue then match args with
    | [value] => .ofKind (.throw value) .var
    | _ => plain
  else if function = method then match args with
    | [_, ⟨.function decl, d, t⟩] => ⟨.function decl, d, t⟩
    | _ => plain
  else if function = "@@This@@" then .ofKind (.scope .own) .var
  else if function = "@@Other@@" then .ofKind (.scope .other) .var
  else if function = "@@Global@@" then .ofKind (.scope .global) .var
  else plain

end Call

end GmlLift
