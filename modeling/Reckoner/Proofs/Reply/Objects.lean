/-
# Reckoner.Proofs.Reply.Objects — an answer that is an object, however it is written.

An adviser may write the same object in many ways: its members in any order and others among them, each
character of a string as itself or in escapes, blanks between the tokens and white space around the text.
None of this matters. What is read depends on the texts that the names and the two strings stand for, and
only on these; the check for an empty text is made on them, too (`parseReply_of_object`).

A name has to stand for a text even if the member is ignored, so an escape of half a surrogate pair in any
name is enough for an object to be refused (`parseReply_of_unpaired_name`). In an ignored value it is not.
-/
import Reckoner.Proofs.Reply
import Reckoner.Proofs.Text

namespace Reckoner

variable {members : List Json.Member} {text : List Char}

/-! ## The text of an object -/

theorem white_of_blank {cs : List Char} (h : Blank cs) : White cs :=
  fun c hc => isWhite_of_isBlank (h.isBlank c hc)

namespace Json

theorem Value.eq_braces (h : Value text (.object members)) :
    ∃ inner, text = '{' :: (inner ++ ['}']) := by
  cases h with
  | emptyObject _ | object _ => exact ⟨_, rfl⟩

/-- A text between braces has nothing to trim. -/
theorem trim_braces (inner : List Char) : trim ('{' :: (inner ++ ['}'])) = '{' :: (inner ++ ['}']) := by
  have hopen : isWhite '{' = false := rfl
  rw [← List.cons_append, trim_concat rfl, List.dropWhile_cons_of_neg (by rw [hopen]; decide)]

/-- What is left of an object when it is trimmed with white space around it is a text of it still. -/
theorem Text.trim_object {front back : List Char} (h : Text text (.object members))
    (hfront : White front) (hback : White back) :
    Text (trim (front ++ text ++ back)) (.object members) := by
  cases h with
  | mk ha hvalue hb =>
    obtain ⟨inner, rfl⟩ := hvalue.eq_braces
    rw [trim_append_of_white hfront hback, trim_append_of_white (white_of_blank ha) (white_of_blank hb),
      trim_braces]
    have htext : Text ([] ++ '{' :: (inner ++ ['}']) ++ []) (.object members) :=
      .mk blank_nil hvalue blank_nil
    rwa [List.append_nil] at htext

end Json

namespace Reply

/-! ## Members by their names -/

/-- **`NamesDenote members`** — each name stands for a text. -/
def NamesDenote (members : List Json.Member) : Prop := ∀ m ∈ members, ∃ name, Json.Denotes m.1 name

/-- **`SoleMember name text members`** — one member has a name that stands for `name`, no other has such
a name, and its value is a string that stands for `text`. -/
def SoleMember (name text : String) (members : List Json.Member) : Prop :=
  ∃ front ns ps back, members = front ++ (ns, .string ps) :: back ∧ Json.Denotes ns name.toList ∧
    Json.Denotes ps text.toList ∧ ∀ m ∈ front ++ back, ¬ Json.Denotes m.1 name.toList

variable {named : List (List Char × Json)}

theorem exists_named_iff : (∃ named, Named members named) ↔ NamesDenote members := by
  induction members with
  | nil => exact iff_of_true ⟨[], .nil⟩ fun m hm => by cases hm
  | cons m members ih =>
    rw [NamesDenote, List.forall_mem_cons, ← NamesDenote, ← ih]
    constructor
    · rintro ⟨_, hnamed⟩
      cases hnamed with
      | @cons _ n _ named hm hmembers => exact ⟨⟨n.1, hm.1⟩, named, hmembers⟩
    · rintro ⟨⟨name, hname⟩, named, hnamed⟩
      exact ⟨(name, m.2) :: named, .cons ⟨hname, rfl⟩ hnamed⟩

theorem Named.exists_of_append {front back : List Json.Member}
    (h : Named (front ++ back) named) :
    ∃ as bs, named = as ++ bs ∧ Named front as ∧ Named back bs := by
  induction front generalizing named with
  | nil => exact ⟨[], named, rfl, .nil, h⟩
  | cons m front ih =>
    cases h with
    | @cons _ n _ named hm hrest =>
      obtain ⟨as, bs, rfl, hfront, hback⟩ := ih hrest
      exact ⟨n :: as, bs, rfl, .cons hm hfront, hback⟩

/-- Which member is the only one of its name does not depend on how the names are written. -/
theorem SoleMember.sole {name content : String} (h : SoleMember name content members)
    (hnamed : Named members named) : Sole name content.toList named := by
  obtain ⟨front, ns, ps, back, rfl, hname, hps, hothers⟩ := h
  obtain ⟨as, bs, rfl, hfront, hrest⟩ := hnamed.exists_of_append
  cases hrest with
  | @cons _ n _ bs hn hback =>
    obtain ⟨n, v⟩ := n
    obtain ⟨hdenotes, rfl⟩ := hn
    obtain rfl := hname.unique hdenotes
    refine ⟨as, ps, bs, rfl, hps, fun n hmem heq => ?_⟩
    have hrest : Named (front ++ back) (as ++ bs) := List.rel_append hfront hback
    obtain ⟨ms, hms, hdenotes⟩ := hrest.exists_of_mem hmem
    exact hothers _ hms (heq ▸ hdenotes)

/-! ## The answer in an object -/

section

variable {f m : String} (hshort : ∀ ps, Json.Occurs ps (.object members) → Json.Short ps)

include hshort

theorem ofJson?_of_soleMember (hnames : NamesDenote members) (hfix : SoleMember "fix" f members)
    (hmessage : SoleMember "message" m members) :
    ofJson? (.object members) = some ⟨f.toList, m.toList⟩ := by
  obtain ⟨named, hnamed⟩ := exists_named_iff.mpr hnames
  exact (ofJson?_object_iff hshort).mpr ⟨named, hnamed, hfix.sole hnamed, hmessage.sole hnamed⟩

theorem ofJson?_of_not_namesDenote (hnames : ¬ NamesDenote members) :
    ofJson? (.object members) = none := by
  cases h : ofJson? (.object members) with
  | none => rfl
  | some reply =>
    obtain ⟨named, hnamed, -⟩ := (ofJson?_object_iff hshort).mp h
    exact absurd (exists_named_iff.mp ⟨named, hnamed⟩) hnames

end

theorem suggestion?_eq_none_iff {reply : Reply} :
    reply.suggestion? = none ↔ reply.fix = [] ∨ reply.message = [] := by
  rw [suggestion?, ite_eq_left_iff]
  simp only [Bool.or_eq_true, List.isEmpty_iff, reduceCtorEq, imp_false, not_not]

end Reply

/-! ## The suggestion in an object -/

theorem parseReply_ofList {front back : List Char} (htext : Json.Text text (.object members))
    (hfront : White front) (hback : White back) :
    parseReply (.ofList (front ++ text ++ back)) =
      (Reply.ofJson? (.object members)).bind Reply.suggestion? := by
  have hread := Json.read_eq_some_iff.mpr (htext.trim_object hfront hback)
  rw [parseReply, String.toList_ofList, hread, Option.bind_some]

/-- There is an object with any two texts. -/
theorem Reply.exists_object (f m : String) :
    ∃ text members, Json.Text text (.object members) ∧ NamesDenote members ∧
      SoleMember "fix" f members ∧ SoleMember "message" m members := by
  obtain ⟨fixName, fs, hfs, hfix⟩ := Json.exists_contents_denotes "fix".toList
  obtain ⟨messageName, ms, hms, hmessage⟩ := Json.exists_contents_denotes "message".toList
  obtain ⟨fixText, ps, hps, hf⟩ := Json.exists_contents_denotes f.toList
  obtain ⟨messageText, qs, hqs, hm⟩ := Json.exists_contents_denotes m.toList
  have hdistinct : "fix".toList ≠ "message".toList := by decide
  have hfixField := Json.Field.mk blank_nil hfs blank_nil
    (.mk blank_nil (Json.Value.string hps) blank_nil)
  have hmessageField := Json.Field.mk blank_nil hms blank_nil
    (.mk blank_nil (Json.Value.string hqs) blank_nil)
  refine ⟨_, [(fs, .string ps), (ms, .string qs)],
    .mk blank_nil (.object (.more hfixField (.one hmessageField))) blank_nil, ?_, ?_, ?_⟩
  · simp only [NamesDenote, List.forall_mem_cons]
    exact ⟨⟨_, hfix⟩, ⟨_, hmessage⟩, fun _ h => by cases h⟩
  · refine ⟨[], fs, ps, _, rfl, hfix, hf, List.forall_mem_singleton.mpr fun h => ?_⟩
    exact hdistinct (h.unique hmessage)
  · refine ⟨[_], ms, qs, [], rfl, hmessage, hm, List.forall_mem_singleton.mpr fun h => ?_⟩
    exact hdistinct (hfix.unique h)

/-- **`parseReply_of_object`** — an object with one member `fix` and one member `message` that are strings,
with white space around it, gives the suggestion made of the texts that these stand for. It gives none if
one of the two texts is empty, or if some name in the object stands for no text. For any two texts there is
such an object. -/
theorem parseReply_of_object (f m : String) :
    (∀ (front text back : List Char) (members : List Json.Member),
      White front → White back → Json.Text text (.object members) →
      Reply.SoleMember "fix" f members → Reply.SoleMember "message" m members →
      (Reply.NamesDenote members → f ≠ "" → m ≠ "" →
        parseReply (.ofList (front ++ text ++ back)) = some ⟨f, "💡 " ++ m⟩) ∧
      (f = "" ∨ m = "" ∨ ¬ Reply.NamesDenote members →
        parseReply (.ofList (front ++ text ++ back)) = none)) ∧
    ∃ text members, Json.Text text (.object members) ∧ Reply.NamesDenote members ∧
      Reply.SoleMember "fix" f members ∧ Reply.SoleMember "message" m members := by
  refine ⟨fun front text back members hfront hback htext hfix hmessage => ?_,
    Reply.exists_object f m⟩
  have hshort : ∀ ps, Json.Occurs ps (.object members) → Json.Short ps := fun _ => htext.short
  rw [parseReply_ofList htext hfront hback]
  by_cases hnames : Reply.NamesDenote members
  · rw [Reply.ofJson?_of_soleMember hshort hnames hfix hmessage, Option.bind_some]
    refine ⟨fun _ hf hm => ?_, fun hempty => ?_⟩
    · rw [ne_eq, ← String.toList_eq_nil_iff] at hf hm
      refine Reply.suggestion?_eq_some_iff.mpr ⟨hf, hm, ?_⟩
      rw [String.ofList_toList, String.ofList_toList]
    · rcases hempty with rfl | rfl | hnot
      · exact Reply.suggestion?_eq_none_iff.mpr (.inl rfl)
      · exact Reply.suggestion?_eq_none_iff.mpr (.inr rfl)
      · exact absurd hnames hnot
  · rw [Reply.ofJson?_of_not_namesDenote hshort hnames]
    exact ⟨fun h => absurd h hnames, fun _ => rfl⟩

/-- Characters in escapes, one of them in a name, an ignored value with half of a surrogate pair, blanks,
and white space around the text. Of an object with an empty message nothing is suggested. -/
theorem parseReply_of_object_in_escapes :
    parseReply (.ofList (['\u00a0'] ++
        "\x7b\"x\": [1e999, \"\\udca1\"], \"m\\u0065ssage\":\t\"\\\"\\ud83d\\udca1\\b\"".toList ++
          ", \"fix\":\"5\\u00d7\\/3\"\x7d".toList ++ ['\n'])) =
        some ⟨"5×/3", "💡 \"💡\x08"⟩ ∧
      parseReply (.ofList ([] ++ "\x7b\"message\": \"\", \"fix\": \"5\"\x7d".toList ++ [])) = none := by
  constructor
  · rw [List.append_assoc ['\u00a0']]
    refine ((parseReply_of_object "5×/3" "\"💡\x08").1 ['\u00a0'] _ ['\n']
      [([.character 'x'], .array [.number "1e999".toList, .string [.unit 0xdca1]]),
        (.character 'm' :: .unit 0x65 :: "ssage".toList.map .character,
          .string [.character '"', .unit 0xd83d, .unit 0xdca1, .character '\x08']),
        ("fix".toList.map .character,
          .string [.character '5', .unit 0xd7, .character '/', .character '3'])]
      (List.forall_mem_singleton.mpr rfl) (List.forall_mem_singleton.mpr rfl)
      (Json.read_eq_some_iff.mp rfl) ?_ ?_).1 ?_ (by decide) (by decide)
    · exact ⟨[_, _], _, _, [], rfl, by decide, by decide, by decide⟩
    · exact ⟨[_], _, _, [_], rfl, by decide, by decide, by decide⟩
    · simp only [Reply.NamesDenote, List.forall_mem_cons]
      exact ⟨⟨"x".toList, by decide⟩, ⟨"message".toList, by decide⟩, ⟨"fix".toList, by decide⟩,
        fun _ h => by cases h⟩
  · refine ((parseReply_of_object "5" "").1 [] _ []
      [("message".toList.map .character, .string []),
        ("fix".toList.map .character, .string [.character '5'])]
      white_nil white_nil (Json.read_eq_some_iff.mp rfl) ?_ ?_).2 (.inr (.inl rfl))
    · exact ⟨[_], _, _, [], rfl, by decide, by decide, by decide⟩
    · exact ⟨[], _, _, [_], rfl, by decide, by decide, by decide⟩

/-- A member that would be ignored keeps the answer from being read, because half of a surrogate pair in
its name stands for no text. -/
theorem parseReply_of_unpaired_name :
    parseReply "\x7b\"fix\":\"5+3\",\"message\":\"Doubled plus sign.\",\"\\ud800\":1\x7d" = none ∧
      ∃ members,
        Json.Text "\x7b\"fix\":\"5+3\",\"message\":\"Doubled plus sign.\",\"\\ud800\":1\x7d".toList
          (.object members) ∧
        Reply.SoleMember "fix" "5+3" members ∧
        Reply.SoleMember "message" "Doubled plus sign." members := by
  refine ⟨by decide +kernel, [("fix".toList.map .character, .string ("5+3".toList.map .character)),
    ("message".toList.map .character, .string ("Doubled plus sign.".toList.map .character)),
    ([.unit 0xd800], .number ['1'])], Json.read_eq_some_iff.mp rfl, ?_, ?_⟩
  · exact ⟨[], _, _, _, rfl, by decide, by decide, by decide⟩
  · exact ⟨[_], _, _, _, rfl, by decide, by decide, by decide⟩

end Reckoner
