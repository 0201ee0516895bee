/-
# Reckoner.Remote.Reply — what a remote adviser answered.

An answer is a JSON text, with white space of any kind around it. Its fix and its message are read from
an object with exactly one member of each name, both strings; other members are ignored, once their
names are texts. An array of exactly those two strings is taken as well. Whatever else arrives is no
suggestion, and neither is an empty fix or an empty message. Nothing is said about why.
-/
import Reckoner.Json.Reading
import Reckoner.Repair.Suggestion

namespace Reckoner

/-- What is written in front of an explanation that came from a remote adviser. -/
def remoteMessageLead : String := "💡 "

/-- **`Reply`** — the two texts of an answer. -/
structure Reply where
  fix : List Char
  message : List Char
  deriving DecidableEq

namespace Reply

/-- **`textOf? value`** — the text of a JSON string. -/
def textOf? : Json → Option (List Char)
  | .string pieces => Json.text? pieces
  | _ => none

/-- **`onlyMember? name members`** — the text of the one member with that name. -/
def onlyMember? (name : String) (members : List (List Char × Json)) : Option (List Char) :=
  match members.filter fun m => m.1 == name.toList with
  | [(_, v)] => textOf? v
  | _ => none

/-- **`ofJson? value`** — the answer that a JSON value holds. -/
def ofJson? : Json → Option Reply
  | .object members => do
    let named ← members.mapM fun (name, v) => (Json.text? name).map (·, v)
    return ⟨← onlyMember? "fix" named, ← onlyMember? "message" named⟩
  | .array [fix, message] => do return ⟨← textOf? fix, ← textOf? message⟩
  | _ => none

/-- **`reply.suggestion?`** — the suggestion made by an answer, unless one of its texts is empty. -/
def suggestion? (reply : Reply) : Option Suggestion :=
  if reply.fix.isEmpty || reply.message.isEmpty then none
  else some ⟨.ofList reply.fix, remoteMessageLead ++ .ofList reply.message⟩

end Reply

/-- **`parseReply body`** — the suggestion in a remote adviser's answer. -/
def parseReply (body : String) : Option Suggestion :=
  ((Json.read (trim body.toList)).bind Reply.ofJson?).bind Reply.suggestion?

end Reckoner
