import PhpAnalyser.Text.Character
/-!
The reserved words, which are read without regard to ASCII case.
-/
namespace PhpAnalyser

inductive Keyword where
  | abstract_ | and_ | array_ | as_ | break_ | case_ | catch_ | class_ | clone_ | const_
  | continue_ | default_ | die_ | do_ | echo_ | else_ | elseIf_ | empty_ | endFor_ | endForeach_
  | endIf_ | endSwitch_ | endWhile_ | exit_ | extends_ | final_ | finally_ | for_ | foreach_
  | function_ | global_ | if_ | implements_ | include_ | includeOnce_ | instanceof_ | insteadof_
  | interface_ | isset_ | namespace_ | new_ | or_ | parent_ | print_ | private_ | protected_
  | public_ | require_ | requireOnce_ | return_ | self_ | static_ | switch_ | throw_ | trait_
  | try_ | unset_ | use_ | var_ | while_ | xor_
  deriving DecidableEq, Repr

namespace Keyword

def spellings : List (String × Keyword) :=
  [("abstract", abstract_), ("and", and_), ("array", array_), ("as", as_), ("break", break_),
    ("case", case_), ("catch", catch_), ("class", class_), ("clone", clone_), ("const", const_),
    ("continue", continue_), ("default", default_), ("die", die_), ("do", do_), ("echo", echo_),
    ("else", else_), ("elseif", elseIf_), ("empty", empty_), ("endfor", endFor_),
    ("endforeach", endForeach_), ("endif", endIf_), ("endswitch", endSwitch_),
    ("endwhile", endWhile_), ("exit", exit_), ("extends", extends_), ("final", final_),
    ("finally", finally_), ("for", for_), ("foreach", foreach_), ("function", function_),
    ("global", global_), ("if", if_), ("implements", implements_), ("include", include_),
    ("include_once", includeOnce_), ("instanceof", instanceof_), ("insteadof", insteadof_),
    ("interface", interface_), ("isset", isset_), ("namespace", namespace_), ("new", new_),
    ("or", or_), ("parent", parent_), ("print", print_), ("private", private_),
    ("protected", protected_), ("public", public_), ("require", require_),
    ("require_once", requireOnce_), ("return", return_), ("self", self_), ("static", static_),
    ("switch", switch_), ("throw", throw_), ("trait", trait_), ("try", try_), ("unset", unset_),
    ("use", use_), ("var", var_), ("while", while_), ("xor", xor_)]

def ofName? (name : String) : Option Keyword := spellings.lookup (asciiLower name)

def isOperator : Keyword → Bool
  | and_ | or_ | xor_ | instanceof_ => true
  | _ => false

/-- The words whose meaning depends on the surrounding type. -/
def isLateBound : Keyword → Bool
  | self_ | parent_ | static_ => true
  | _ => false

end Keyword

end PhpAnalyser
