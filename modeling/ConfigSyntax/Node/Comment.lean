import ConfigSyntax.Node
import ConfigSyntax.Text.Blank

/-! The comment in front of a node. -/

namespace ConfigSyntax.Comment

def between? (opening closing text : List Char) : Option (List Char) :=
  if opening.isPrefixOf text then
    let rest := text.drop opening.length
    if closing.isSuffixOf rest then some (rest.take (rest.length - closing.length)) else none
  else none

/-- A line of a block comment: an asterisk at its start belongs to the frame of the comment. -/
def cleanLine (line : List Char) : List Char :=
  match Text.trim line with
  | '*' :: rest => Text.trimStart rest
  | line => line

def clean (text : List Char) : String :=
  "\n".intercalate (((Text.lines text).map cleanLine |>.filter (!·.isEmpty)).map String.ofList)

def ofBlock (text : String) : String :=
  ((between? ['/', '*'] ['*', '/'] text.toList).map clean).getD ""

def ofLine (text : String) : String :=
  match text.toList with
  | '/' :: '/' :: rest => .ofList (Text.trim rest)
  | cs => .ofList (Text.trim cs)

/-- What is said by the comments in front of a node, given the siblings there from the nearest on:
line comments up to a blank line, or up to a block comment, which is the last one to count. -/
def said : List Tree → List String
  | .token .whitespace s :: ts => if s.toList.count '\n' > 1 then [] else said ts
  | .token .blockComment s :: _ => if ofBlock s = "" then [] else [ofBlock s]
  | .token .lineComment s :: ts => if ofLine s = "" then said ts else ofLine s :: said ts
  | _ => []

end Comment

def Node.comment? (n : Node) : Option String :=
  match Comment.said n.before with
  | [] => none
  | said => some ("\n".intercalate said.reverse)

end ConfigSyntax
