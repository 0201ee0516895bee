/-
# Reckoner.Remote.Prompt — the request sent to a remote adviser.
-/

namespace Reckoner

/-- **`remotePrompt expression message`** — asks for a correction of an expression that failed with the
given wording, and says in which form to answer. Neither text is escaped. -/
def remotePrompt (expression message : String) : String :=
  "Correct the following mathematical expression which caused an error.\n" ++
  "Provide a brief, one-sentence explanation of the error.\n" ++
  "Expression: \"" ++ expression ++ "\"\n" ++
  "Error: \"" ++ message ++ "\"\n" ++
  "Respond ONLY with a valid JSON object with two keys: \"fix\" (the corrected expression) " ++
  "and \"message\" (the explanation)."

end Reckoner
