import AccessFilter.Number.Basic

/-!
# JSON values

Trees, expressions and settings travel as JSON.  A value keeps the members of an object in the order
of their keys and at most one member to a key, so that two objects with the same members are the
same value.

* `Json` — the six kinds of value.
* `Json.ofMembers` — an object from members in any order; the last one of a key counts.
* `Json.member?` — the member of a key.
-/

namespace AccessFilter

/-- A JSON value. -/
inductive Json where
  | null
  | bool (value : Bool)
  | number (value : Number)
  | string (value : String)
  | array (items : List Json)
  | object (members : List (String × Json))
  deriving Repr

namespace Json

instance : Inhabited Json := ⟨null⟩

/-! ## Equality -/

mutual

/-- Equality of values is decided by comparing them part by part. -/
def decEq : (a b : Json) → Decidable (a = b)
  | null, null => isTrue rfl
  | bool a, bool b =>
    if h : a = b then isTrue (h ▸ rfl) else isFalse fun e => h (Json.bool.inj e)
  | number a, number b =>
    if h : a = b then isTrue (h ▸ rfl) else isFalse fun e => h (Json.number.inj e)
  | string a, string b =>
    if h : a = b then isTrue (h ▸ rfl) else isFalse fun e => h (Json.string.inj e)
  | array a, array b =>
    match decEqItems a b with
    | isTrue h => isTrue (h ▸ rfl)
    | isFalse h => isFalse fun e => h (Json.array.inj e)
  | object a, object b =>
    match decEqMembers a b with
    | isTrue h => isTrue (h ▸ rfl)
    | isFalse h => isFalse fun e => h (Json.object.inj e)
  | null, bool _ | null, number _ | null, string _ | null, array _ | null, object _
  | bool _, null | bool _, number _ | bool _, string _ | bool _, array _ | bool _, object _
  | number _, null | number _, bool _ | number _, string _ | number _, array _ | number _, object _
  | string _, null | string _, bool _ | string _, number _ | string _, array _ | string _, object _
  | array _, null | array _, bool _ | array _, number _ | array _, string _ | array _, object _
  | object _, null | object _, bool _ | object _, number _ | object _, string _
  | object _, array _ => isFalse nofun

/-- Equality of the items of two arrays. -/
def decEqItems : (a b : List Json) → Decidable (a = b)
  | [], [] => isTrue rfl
  | [], _ :: _ => isFalse nofun
  | _ :: _, [] => isFalse nofun
  | x :: a, y :: b =>
    match decEq x y, decEqItems a b with
    | isTrue h, isTrue k => isTrue (by rw [h, k])
    | isFalse h, _ => isFalse fun e => h (List.cons.inj e).1
    | _, isFalse k => isFalse fun e => k (List.cons.inj e).2

/-- Equality of the members of two objects. -/
def decEqMembers : (a b : List (String × Json)) → Decidable (a = b)
  | [], [] => isTrue rfl
  | [], _ :: _ => isFalse nofun
  | _ :: _, [] => isFalse nofun
  | (k, x) :: a, (l, y) :: b =>
    match decEq x y, decEqMembers a b with
    | isTrue h, isTrue i =>
      if g : k = l then isTrue (by rw [g, h, i])
      else isFalse fun e => g (Prod.mk.inj (List.cons.inj e).1).1
    | isFalse h, _ => isFalse fun e => h (Prod.mk.inj (List.cons.inj e).1).2
    | _, isFalse i => isFalse fun e => i (List.cons.inj e).2

end

instance : DecidableEq Json := decEq

/-! ## Objects -/

/-- The members with one more, which replaces a member of the same key.  Keys are ordered by code
points, which is also the order of their UTF-8 forms. -/
def insertMember (key : String) (value : Json) : List (String × Json) → List (String × Json)
  | [] => [(key, value)]
  | (k, v) :: rest =>
    if key = k then (key, value) :: rest
    else if key < k then (key, value) :: (k, v) :: rest
    else (k, v) :: insertMember key value rest

/-- **The object of a list of members,** of which the last one of a key counts. -/
def ofMembers (members : List (String × Json)) : Json :=
  object (members.foldl (fun done m => insertMember m.1 m.2 done) [])

/-- The value of a key. -/
def member? (key : String) : List (String × Json) → Option Json
  | [] => none
  | (k, v) :: rest => if k = key then some v else member? key rest

/-- An inserted member is found. -/
theorem member?_insertMember_self (key : String) (value : Json) (members : List (String × Json)) :
    member? key (insertMember key value members) = some value := by
  induction members with
  | nil => simp [insertMember, member?]
  | cons m rest ih =>
    obtain ⟨k, v⟩ := m
    by_cases h : key = k
    · simp [insertMember, member?, h]
    · by_cases hlt : key < k
      · simp [insertMember, member?, h, hlt]
      · simp [insertMember, member?, h, hlt, Ne.symm h, ih]

/-- The members of all other keys stay as they were. -/
theorem member?_insertMember_of_ne {key other : String} (h : other ≠ key) (value : Json)
    (members : List (String × Json)) :
    member? other (insertMember key value members) = member? other members := by
  induction members with
  | nil => simp [insertMember, member?, Ne.symm h]
  | cons m rest ih =>
    obtain ⟨k, v⟩ := m
    by_cases hk : key = k
    · subst hk; simp [insertMember, member?, Ne.symm h]
    · by_cases hlt : key < k
      · simp [insertMember, member?, hk, hlt, Ne.symm h]
      · simp only [insertMember, hk, hlt, if_false, member?, ih]

/-! ## Leaves -/

/-- The text of a string, none for any other value. -/
def string? : Json → Option String
  | string s => some s
  | _ => none

/-- The value of a boolean, none for any other value. -/
def bool? : Json → Option Bool
  | bool b => some b
  | _ => none

/-- A whole number that is not negative and at most `limit`. -/
def natUpTo? (limit : Nat) : Json → Option Nat
  | number (.int n) => if 0 ≤ n ∧ n.toNat ≤ limit then some n.toNat else none
  | _ => none

end Json

end AccessFilter
