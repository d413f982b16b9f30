namespace PolicyTree.Text

/-- The stretches of text between occurrences of `sep`, empty ones included. -/
def splitChars (sep : Char) : List Char → List (List Char)
  | [] => [[]]
  | c :: cs =>
    if c = sep then [] :: splitChars sep cs
    else match splitChars sep cs with
      | [] => [[c]]
      | field :: fields => (c :: field) :: fields

/-- The fields of `text` between occurrences of `sep`; there is always at least one. -/
def fields (sep : Char) (text : String) : List String :=
  (splitChars sep text.toList).map String.ofList

theorem splitChars_ne_nil (sep : Char) (cs : List Char) : splitChars sep cs ≠ [] := by
  cases cs with
  | nil => simp [splitChars]
  | cons c cs =>
    rw [splitChars]
    split
    · simp
    · split <;> simp

theorem fields_ne_nil (sep : Char) (text : String) : fields sep text ≠ [] := by
  simp [fields, splitChars_ne_nil]

end PolicyTree.Text
