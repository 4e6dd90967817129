/-!
# Association lists

A finite map is a list of keys with their values.  `List.lookup` finds the value of a
key, and `put` gives a key a value: in its place if it has one, and behind all others
if it is new.
-/

namespace Isel.Assoc

variable {κ α β : Type} [BEq κ] {k k' : κ} {a b : α} {m : List (κ × α)}

def put (k : κ) (a : α) : List (κ × α) → List (κ × α)
  | [] => [(k, a)]
  | (k', b) :: rest => if k == k' then (k', a) :: rest else (k', b) :: put k a rest

theorem lookup_cons_ite (k : κ) (e : κ × α) (m : List (κ × α)) :
    (e :: m).lookup k = if k == e.1 then some e.2 else m.lookup k := by
  rw [List.lookup_cons]
  cases k == e.1 <;> rfl

theorem lookup_map_snd (g : α → β) (k : κ) (m : List (κ × α)) :
    (m.map fun e => (e.1, g e.2)).lookup k = (m.lookup k).map g := by
  induction m with
  | nil => rfl
  | cons e m ih =>
    rw [List.map_cons, lookup_cons_ite, lookup_cons_ite, ih]
    split <;> rfl

variable [LawfulBEq κ]

theorem lookup_put_self (k : κ) (a : α) (m : List (κ × α)) : (put k a m).lookup k = some a := by
  induction m with
  | nil => exact List.lookup_cons_self
  | cons e m ih =>
    rw [put]
    split
    · next he => rw [eq_of_beq he, List.lookup_cons_self]
    · next he => rw [lookup_cons_ite, if_neg he, ih]

theorem lookup_put_ne (h : k' ≠ k) : (put k a m).lookup k' = m.lookup k' := by
  induction m with
  | nil => rw [put, lookup_cons_ite, if_neg (by simpa using h)]
  | cons e m ih =>
    rw [put, lookup_cons_ite k' e m]
    split
    · next he =>
      obtain rfl := eq_of_beq he
      rw [lookup_cons_ite, if_neg (by simpa using h), if_neg (by simpa using h)]
    · rw [lookup_cons_ite, ih]

/-- What a new value does not change is kept, in order. -/
theorem map_put {f : κ × α → β} (h : m.lookup k = some b) (hf : f (k, a) = f (k, b)) :
    (put k a m).map f = m.map f := by
  induction m with
  | nil => cases h
  | cons e m ih =>
    rw [lookup_cons_ite] at h
    rw [put]
    split at h
    · next he =>
      obtain rfl := eq_of_beq he
      cases h
      rw [if_pos he, List.map_cons, List.map_cons, hf]
    · next he => rw [if_neg he, List.map_cons, List.map_cons, ih h]

end Isel.Assoc
