import ObjectBridge.Dict
import ObjectBridge.SlotStore

/-!
# Interned strings

Equal texts share one number while the string lives. The collector removes strings that nothing
refers to, from the slots and from the index of texts, and the number may then come to stand for
another text.
-/

namespace ObjectBridge

/-- The strings of a heap. -/
structure StringPool where
  /-- The texts by number. -/
  texts : SlotStore String := {}
  /-- The numbers by text. -/
  index : Dict String Nat := .empty

namespace StringPool

instance : Inhabited StringPool := ⟨{}⟩

/-- The number of a text that is in the pool. -/
def lookup (p : StringPool) (s : String) : Option Nat :=
  p.index.find? s

/-- The text of a string. -/
def text? (p : StringPool) (id : Nat) : Option String :=
  p.texts.get? id

/-- The number of a text and the pool that has it. -/
def intern (p : StringPool) (s : String) : Nat × StringPool :=
  match p.lookup s with
  | some id => (id, p)
  | none => (p.texts.nextId, ⟨p.texts.insert s, p.index.insert s p.texts.nextId⟩)

/-- Remove a string. -/
def erase (p : StringPool) (id : Nat) : StringPool :=
  match p.text? id with
  | some s => ⟨p.texts.erase id, p.index.erase s⟩
  | none => p

end StringPool

end ObjectBridge
