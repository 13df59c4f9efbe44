import Lockstep.Capture.Basic

set_option autoImplicit false

namespace Lockstep.Capture

mutual

def render : Capture → String
  | .token t => "<token-capture " ++ t.render ++ ">"
  | .empty _ => "<empty-capture>"
  | .list _ [] => "<list-capture>"
  | .list _ items => "<list-capture " ++ ", ".intercalate (renderAll items) ++ ">"
  | .node tag _ parts => tag ++ "(" ++ " ".intercalate (renderAll parts) ++ ")"

def renderAll : List Capture → List String
  | [] => []
  | c :: cs => c.render :: renderAll cs

end

mutual

def describe : Capture → String
  | .token t => "Token(" ++ t.describe ++ ")"
  | .empty p => "Empty(" ++ p.describe ++ ")"
  | .list p items =>
    "List(ListCapture \x7b position: " ++ p.describe ++ ", items: [" ++
      ", ".intercalate (describeAll items) ++ "] \x7d)"
  | .node tag _ parts => "Object(" ++ tag ++ "(" ++ " ".intercalate (renderAll parts) ++ "))"

def describeAll : List Capture → List String
  | [] => []
  | c :: cs => c.describe :: describeAll cs

end

end Lockstep.Capture
