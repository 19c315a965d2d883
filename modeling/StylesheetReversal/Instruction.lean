/-!
# Stylesheet instructions

Stylesheets are written in XML.  Their own elements, the instructions, are those in one
namespace.
-/
namespace StylesheetReversal.Instruction

/-- The namespace of instructions. -/
def uri : String := "http://www.w3.org/1999/XSL/Transform"

end StylesheetReversal.Instruction
