/-
# Reckoner.Proofs.Reply — the answers of a remote adviser that are suggestions.

`Holds v reply` says which answer a JSON value is, in terms of its members alone: the names of an object
stand for texts, and each of the two that count is there once, with a string. Together with the grammar
of JSON, and with what its strings stand for, this is the whole of what is accepted
(`parseReply_eq_some_iff`): a body that is no JSON text, one with something behind the text, a value of
any other shape and an answer with an empty text suggest nothing.

An object is not the only shape. A record is also read from its fields in order, so that an array of two
strings is an answer, and one that the description of the format does not have (`parseReply_of_array`).
-/
import Reckoner.Remote.Reply
import Reckoner.Proofs.Json.Denotes
import Reckoner.Proofs.Json.Reading
import Mathlib.Data.List.Forall2

namespace Reckoner

namespace Reply

/-- **`Named members named`** — the members, with the texts that their names stand for. -/
def Named : List Json.Member → List (List Char × Json) → Prop :=
  List.Forall₂ fun m n => Json.Denotes m.1 n.1 ∧ m.2 = n.2

/-- **`Sole name text named`** — one member has the name, no other has it, and its value is a string that
stands for the text. -/
def Sole (name : String) (text : List Char) (named : List (List Char × Json)) : Prop :=
  ∃ front pieces back, named = front ++ (name.toList, .string pieces) :: back ∧
    Json.Denotes pieces text ∧ ∀ m ∈ front ++ back, m.1 ≠ name.toList

/-- **`Holds v reply`** — the JSON value holds the answer. -/
inductive Holds : Json → Reply → Prop
  | object {members : List Json.Member} {named : List (List Char × Json)} {fix message : List Char} :
      Named members named → Sole "fix" fix named → Sole "message" message named →
      Holds (.object members) ⟨fix, message⟩
  | array {ps qs : List Json.Piece} {fix message : List Char} :
      Json.Denotes ps fix → Json.Denotes qs message →
      Holds (.array [.string ps, .string qs]) ⟨fix, message⟩

/-! ## The answer in a value -/

variable {v : Json} {reply : Reply}

theorem textOf?_eq_some_iff {text : List Char} (hshort : ∀ ps, Json.Occurs ps v → Json.Short ps) :
    textOf? v = some text ↔ ∃ ps, v = .string ps ∧ Json.Denotes ps text := by
  cases v with
  | string ps =>
    simp only [textOf?, Json.string.injEq, exists_eq_left', Json.text?_eq_some_iff (hshort ps .string)]
  | _ => simp only [textOf?, reduceCtorEq, false_and, exists_false]

/-- One element passes a filter if it does and all others do not. -/
theorem filter_eq_singleton_iff {α : Type} {p : α → Bool} {xs : List α} {x : α} :
    xs.filter p = [x] ↔
      ∃ front back, xs = front ++ x :: back ∧ p x = true ∧ ∀ y ∈ front ++ back, ¬p y = true := by
  rw [List.filter_eq_cons_iff]
  refine exists_congr fun front => exists_congr fun back => and_congr_right' ?_
  rw [List.filter_eq_nil_iff, List.forall_mem_append, and_left_comm]

theorem onlyMember?_eq_some_iff {name : String} {text : List Char} {named : List (List Char × Json)}
    (hshort : ∀ n ∈ named, ∀ ps, Json.Occurs ps n.2 → Json.Short ps) :
    onlyMember? name named = some text ↔ Sole name text named := by
  unfold onlyMember?
  constructor
  · intro h
    split at h
    · rename_i m v hfilter
      obtain ⟨front, back, rfl, hm, hothers⟩ := filter_eq_singleton_iff.mp hfilter
      have hv := hshort (m, v) (List.mem_append_right front List.mem_cons_self)
      obtain ⟨ps, rfl, hps⟩ := (textOf?_eq_some_iff hv).mp h
      obtain rfl : m = name.toList := beq_iff_eq.mp hm
      exact ⟨front, ps, back, rfl, hps, fun n hn heq => hothers n hn (beq_iff_eq.mpr heq)⟩
    · cases h
  · rintro ⟨front, ps, back, rfl, hps, hothers⟩
    have hname : (name.toList == name.toList) = true := beq_self_eq_true _
    rw [filter_eq_singleton_iff.mpr ⟨front, back, rfl, hname, fun n hn heq =>
      hothers n hn (beq_iff_eq.mp heq)⟩]
    exact Json.text?_of_denotes hps

theorem mapM_named_iff {members : List Json.Member} {named : List (List Char × Json)}
    (hshort : ∀ m ∈ members, Json.Short m.1) :
    (members.mapM fun (name, v) => (Json.text? name).map (·, v)) = some named ↔
      Named members named := by
  induction members generalizing named with
  | nil =>
    rw [List.mapM_nil, Named, List.forall₂_nil_left_iff]
    exact ⟨fun h => (Option.some.inj h).symm, fun h => congrArg some h.symm⟩
  | cons m members ih =>
    obtain ⟨name, v⟩ := m
    obtain ⟨hname, hshort⟩ := List.forall_mem_cons.mp hshort
    simp only [List.mapM_cons, Option.bind_eq_bind, Option.pure_def, Option.bind_eq_some_iff,
      Option.map_eq_some_iff, ih hshort, Json.text?_eq_some_iff hname, Named,
      List.forall₂_cons_left_iff, Option.some.injEq]
    constructor
    · rintro ⟨_, ⟨text, htext, rfl⟩, rest, hrest, rfl⟩
      exact ⟨(text, v), rest, ⟨htext, rfl⟩, hrest, rfl⟩
    · rintro ⟨⟨text, _⟩, rest, ⟨htext, rfl⟩, hrest, rfl⟩
      exact ⟨_, ⟨text, htext, rfl⟩, rest, hrest, rfl⟩

theorem Named.exists_of_mem {members : List Json.Member} {named : List (List Char × Json)}
    (h : Named members named) {n : List Char × Json} (hn : n ∈ named) :
    ∃ name, (name, n.2) ∈ members ∧ Json.Denotes name n.1 := by
  induction h with
  | nil => cases hn
  | @cons m n' _ _ hm _ ih =>
    rcases List.mem_cons.mp hn with rfl | hn
    · exact ⟨m.1, hm.2 ▸ List.mem_cons_self, hm.1⟩
    · obtain ⟨name, hmem, hdenotes⟩ := ih hn
      exact ⟨name, List.mem_cons_of_mem m hmem, hdenotes⟩

theorem ofJson?_object_iff {members : List Json.Member}
    (hshort : ∀ ps, Json.Occurs ps (.object members) → Json.Short ps) :
    ofJson? (.object members) = some reply ↔
      ∃ named, Named members named ∧ Sole "fix" reply.fix named ∧ Sole "message" reply.message named := by
  have hnames : ∀ m ∈ members, Json.Short m.1 := fun m hm => hshort m.1 (.name hm)
  have hvalues {named : List (List Char × Json)} (hnamed : Named members named) :
      ∀ n ∈ named, ∀ ps, Json.Occurs ps n.2 → Json.Short ps := by
    intro n hn ps hps
    obtain ⟨name, hmem, -⟩ := hnamed.exists_of_mem hn
    exact hshort ps (.member hmem hps)
  constructor
  · intro h
    obtain ⟨named, hnamed, h⟩ := Option.bind_eq_some_iff.mp h
    obtain ⟨fix, hfix, h⟩ := Option.bind_eq_some_iff.mp h
    obtain ⟨message, hmessage, h⟩ := Option.bind_eq_some_iff.mp h
    obtain rfl := Option.some.inj h
    have hnamed := (mapM_named_iff hnames).mp hnamed
    exact ⟨named, hnamed, (onlyMember?_eq_some_iff (hvalues hnamed)).mp hfix,
      (onlyMember?_eq_some_iff (hvalues hnamed)).mp hmessage⟩
  · rintro ⟨named, hnamed, hfix, hmessage⟩
    have hfix := (onlyMember?_eq_some_iff (hvalues hnamed)).mpr hfix
    have hmessage := (onlyMember?_eq_some_iff (hvalues hnamed)).mpr hmessage
    exact Option.bind_eq_some_iff.mpr ⟨named, (mapM_named_iff hnames).mpr hnamed,
      Option.bind_eq_some_iff.mpr ⟨_, hfix, Option.bind_eq_some_iff.mpr ⟨_, hmessage, rfl⟩⟩⟩

theorem ofJson?_array_iff {f m : Json}
    (hshort : ∀ ps, Json.Occurs ps (.array [f, m]) → Json.Short ps) :
    ofJson? (.array [f, m]) = some reply ↔
      ∃ ps qs, f = .string ps ∧ m = .string qs ∧ Json.Denotes ps reply.fix ∧
        Json.Denotes qs reply.message := by
  have hf := fun ps hps => hshort ps (.item List.mem_cons_self hps)
  have hm := fun ps hps => hshort ps (.item (List.mem_cons_of_mem f List.mem_cons_self) hps)
  constructor
  · intro h
    obtain ⟨fix, hfix, h⟩ := Option.bind_eq_some_iff.mp h
    obtain ⟨message, hmessage, h⟩ := Option.bind_eq_some_iff.mp h
    obtain rfl := Option.some.inj h
    obtain ⟨ps, rfl, hps⟩ := (textOf?_eq_some_iff hf).mp hfix
    obtain ⟨qs, rfl, hqs⟩ := (textOf?_eq_some_iff hm).mp hmessage
    exact ⟨ps, qs, rfl, rfl, hps, hqs⟩
  · rintro ⟨ps, qs, rfl, rfl, hps, hqs⟩
    exact Option.bind_eq_some_iff.mpr ⟨_, Json.text?_of_denotes hps,
      Option.bind_eq_some_iff.mpr ⟨_, Json.text?_of_denotes hqs, rfl⟩⟩

/-- What is read from a value is the answer that it holds. -/
theorem ofJson?_eq_some_iff (hshort : ∀ ps, Json.Occurs ps v → Json.Short ps) :
    ofJson? v = some reply ↔ Holds v reply := by
  constructor
  · intro h
    unfold ofJson? at h
    split at h
    · obtain ⟨named, hnamed, hfix, hmessage⟩ := (ofJson?_object_iff hshort).mp h
      exact .object hnamed hfix hmessage
    · obtain ⟨ps, qs, rfl, rfl, hps, hqs⟩ := (ofJson?_array_iff hshort).mp h
      exact .array hps hqs
    · cases h
  · intro h
    cases h with
    | object hnamed hfix hmessage =>
      exact (ofJson?_object_iff hshort).mpr ⟨_, hnamed, hfix, hmessage⟩
    | array hps hqs => exact (ofJson?_array_iff hshort).mpr ⟨_, _, rfl, rfl, hps, hqs⟩

theorem suggestion?_eq_some_iff {s : Suggestion} :
    reply.suggestion? = some s ↔ reply.fix ≠ [] ∧ reply.message ≠ [] ∧
      s = ⟨.ofList reply.fix, "💡 " ++ .ofList reply.message⟩ := by
  unfold suggestion?
  split
  · rename_i hempty
    rw [Bool.or_eq_true, List.isEmpty_iff, List.isEmpty_iff] at hempty
    refine iff_of_false (by simp) ?_
    rintro ⟨hfix, hmessage, -⟩
    exact hempty.elim hfix hmessage
  · rename_i hempty
    rw [Bool.or_eq_true, List.isEmpty_iff, List.isEmpty_iff, not_or] at hempty
    rw [Option.some.injEq, and_iff_right hempty.1, and_iff_right hempty.2]
    exact eq_comm

end Reply

/-- **`parseReply_eq_some_iff`** — a body gives a suggestion just if it is, without the white space around
it, a JSON text of an answer with two texts that are not empty, and the suggestion is made of these. -/
theorem parseReply_eq_some_iff (body : String) (s : Suggestion) :
    parseReply body = some s ↔
      ∃ v reply, Json.Text (trim body.toList) v ∧ Reply.Holds v reply ∧ reply.fix ≠ [] ∧
        reply.message ≠ [] ∧ s = ⟨.ofList reply.fix, "💡 " ++ .ofList reply.message⟩ := by
  simp only [parseReply, Option.bind_eq_some_iff, Json.read_eq_some_iff,
    Reply.suggestion?_eq_some_iff]
  constructor
  · rintro ⟨reply, ⟨v, hv, hreply⟩, hs⟩
    exact ⟨v, reply, hv, (Reply.ofJson?_eq_some_iff fun ps => hv.short).mp hreply, hs⟩
  · rintro ⟨v, reply, hv, hreply, hs⟩
    exact ⟨reply, ⟨v, hv, (Reply.ofJson?_eq_some_iff fun ps => hv.short).mpr hreply⟩, hs⟩

example : parseReply " \x7b\"message\": \"Doubled plus sign.\", \"fix\": \"5\\u002b3\"\x7d " =
    some ⟨"5+3", "💡 Doubled plus sign."⟩ := by decide +kernel

/-- An array of two strings is no object, and the suggestion in it is taken. -/
theorem parseReply_of_array :
    parseReply "[\"5+3\", \"Doubled plus sign.\"]" = some ⟨"5+3", "💡 Doubled plus sign."⟩ ∧
      ¬ ∃ members, Json.Text (trim "[\"5+3\", \"Doubled plus sign.\"]".toList) (.object members) := by
  refine ⟨by decide +kernel, ?_⟩
  rintro ⟨members, htext⟩
  have hkind : (Json.read (trim "[\"5+3\", \"Doubled plus sign.\"]".toList)).map
      (fun v => match v with | .object _ => true | _ => false) = some false := by decide +kernel
  rw [Json.read_eq_some_iff.mpr htext] at hkind
  cases hkind

end Reckoner
