import StoryFlow.Text.Separated

/-! Which subcommand is active, told from slots that hold it. A slot says in its tag what it is for. -/

namespace StoryFlow.Command

/-- A place for a value, perhaps empty, perhaps tagged. -/
structure Slot (α : Type) where
  tag : Option String
  value : Option α

/-- The name in a tag that is the word for subcommands, one colon and a name. -/
def taggedSubcommand? (tag : String) : Option String :=
  match Text.separated ':' tag.toList with
  | [word, name] => if String.ofList word == "subcommand" then some (String.ofList name) else none
  | _ => none

/-- The first slot for a subcommand that holds what is looked for. Looking for nothing finds an empty
slot. -/
def activeSubcommand {α : Type} [DecidableEq α] (slots : List (Slot α)) (wanted : Option α) :
    Option String :=
  slots.findSome? fun s => if s.value = wanted then s.tag.bind taggedSubcommand? else none

end StoryFlow.Command
