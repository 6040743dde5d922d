import TypeLeak.Binary64

/-! # JSON values

Objects are kept in the order of their keys, with one member for each key, so two values are the
same exactly if they are equal.  `Value.ofMembers` builds an object from members in any order; of
members with one key the last counts.

* `lookup_insertMember`   what is found after a member is put in
-/

namespace TypeLeak.Json

/-- A number is an integer if it is written without a point or exponent and fits into 64 bits. -/
inductive Number where
  | integer (value : Int)
  | real (value : Binary64)
  deriving Repr, DecidableEq

/-- The text of a number. -/
def Number.text : Number → String
  | integer value => toString value
  | real value => value.text

/-- A JSON value. -/
inductive Value where
  | null
  | bool (value : Bool)
  | number (value : Number)
  | string (value : String)
  | array (items : List Value)
  | object (members : List (String × Value))
  deriving Repr, Inhabited

namespace Value

/-- The members with one more, at the place of its key.  It replaces one of the same key. -/
def insertMember (key : String) (value : Value) :
    List (String × Value) → List (String × Value)
  | [] => [(key, value)]
  | (k, v) :: rest =>
    if key = k then (key, value) :: rest
    else if key < k then (key, value) :: (k, v) :: rest
    else (k, v) :: insertMember key value rest

/-- The members sorted by key, the last one for each key. -/
def sortMembers (members : List (String × Value)) : List (String × Value) :=
  members.foldl (fun sorted m => insertMember m.1 m.2 sorted) []

/-- The object with the given members. -/
def ofMembers (members : List (String × Value)) : Value := object (sortMembers members)

/-- The member of an object. -/
def member? (key : String) : Value → Option Value
  | object members => members.lookup key
  | _ => none

/-- What is found after a member is put in. -/
theorem lookup_insertMember (key : String) (value : Value) (members : List (String × Value))
    (k : String) :
    (insertMember key value members).lookup k =
      if k = key then some value else members.lookup k := by
  induction members with
  | nil => by_cases h : k = key <;> simp [insertMember, List.lookup_cons, h, beq_eq_false_iff_ne.2]
  | cons m rest ih =>
    obtain ⟨k', v'⟩ := m
    simp only [insertMember]
    split
    · -- the key is there, and its value is replaced
      rename_i heq
      subst heq
      by_cases h : k = key <;> simp [List.lookup_cons, h, beq_eq_false_iff_ne.2]
    · rename_i hne
      split
      · -- the member goes before this one, or further down
        by_cases h : k = key <;> simp [List.lookup_cons, h, beq_eq_false_iff_ne.2]
      · by_cases h : k = key
        · subst h
          simp [List.lookup_cons, ih, beq_eq_false_iff_ne.2 hne]
        · by_cases h' : k = k'
          · subst h'
            simp [h]
          · simp [List.lookup_cons, h, ih, beq_eq_false_iff_ne.2 h']

end Value

end TypeLeak.Json
