import ArmBackend.Assembly.Code

/-!
# Options

The conventions of the target that vary.
-/

namespace ArmBackend

structure Options where
  /-- Comes before the name of a function in its symbol. -/
  symbolPrefix : String := "_"
  /-- The function that returns 0 where its body ends. -/
  entryPoint : String := "main"
  /-- Spaces before an instruction or directive. -/
  indent : Nat := 8
  /-- Whether symbols are global and aligned. -/
  globals : Bool := true
deriving DecidableEq

namespace Options

def functionLabel (options : Options) (name : String) : Label :=
  .named (options.symbolPrefix ++ name)

/-- The lines that open the text of a function. -/
def functionHeader (options : Options) (name : String) : Code :=
  let label := options.functionLabel name
  (if options.globals then [.directive (.global label), .directive (.align 2)] else []) ++
  [.label label]

end Options

end ArmBackend
