import GmlLift.Json.Value
import GmlLift.Settings

/-! Settings from JSON. A field that is not given keeps its default. -/

namespace GmlLift.Settings

open Json (Raw)

/-- The names of the fields, in the order in which an array gives them. -/
def fieldNames : List String :=
  ["indent_string", "use_semicolon", "open_block_braces_on_same_line",
   "allow_leftover_data_on_stack", "clean_ast", "macro_resolution", "convert_for_loops",
   "remove_trailing_exit", "create_enum_declarations"]

/-- The settings that a JSON text describes. -/
def ofJson? (s : String) : Option Settings := do
  let r ← Raw.parse s
  let usual : Settings := {}
  match ← r.record? 0 fieldNames with
  | [indent, semicolons, braceOnSameLine, allowLeftover, clean, resolveNames, forLoops,
     dropTrailingExit, declareEnums] =>
    return {
      indent := ← Raw.orDefault usual.indent Raw.string? indent
      semicolons := ← Raw.orDefault usual.semicolons Raw.bool? semicolons
      braceOnSameLine := ← Raw.orDefault usual.braceOnSameLine Raw.bool? braceOnSameLine
      allowLeftover := ← Raw.orDefault usual.allowLeftover Raw.bool? allowLeftover
      clean := ← Raw.orDefault usual.clean Raw.bool? clean
      resolveNames := ← Raw.orDefault usual.resolveNames Raw.bool? resolveNames
      forLoops := ← Raw.orDefault usual.forLoops Raw.bool? forLoops
      dropTrailingExit := ← Raw.orDefault usual.dropTrailingExit Raw.bool? dropTrailingExit
      declareEnums := ← Raw.orDefault usual.declareEnums Raw.bool? declareEnums }
  | _ => none

end GmlLift.Settings
