import AssetSlots.Toml.Moment

namespace AssetSlots.Toml

/-- The keys of a table are pairwise distinct in every document that is read. -/
inductive Value where
  | text (s : String)
  /-- A number, as it is written. -/
  | number (literal : String)
  | boolean (b : Bool)
  | moment (m : Moment)
  | array (items : List Value)
  | table (entries : List (String × Value))

abbrev Entries := List (String × Value)

end AssetSlots.Toml
