import LoxMachine.Value

/-!
# Equality of values

Equality of values is decidable, by descent into lists and records. It is equality of the values
themselves: minus zero differs from zero, nan equals nan, and 1 differs from true.
-/

namespace LoxMachine.Value

mutual

def decEq : (v w : Value) → Decidable (v = w)
  | nil, w => match w with
    | nil => isTrue rfl
    | bool _ | int _ | num _ | str _ | list _ | dict _ => isFalse nofun
  | bool a, w => match w with
    | bool b => decidable_of_iff (a = b) (by simp)
    | nil | int _ | num _ | str _ | list _ | dict _ => isFalse nofun
  | int a, w => match w with
    | int b => decidable_of_iff (a = b) (by simp)
    | nil | bool _ | num _ | str _ | list _ | dict _ => isFalse nofun
  | num a, w => match w with
    | num b => decidable_of_iff (a = b) (by simp)
    | nil | bool _ | int _ | str _ | list _ | dict _ => isFalse nofun
  | str a, w => match w with
    | str b => decidable_of_iff (a = b) (by simp)
    | nil | bool _ | int _ | num _ | list _ | dict _ => isFalse nofun
  | list a, w => match w with
    | list b => @decidable_of_iff _ (a = b) (by simp) (decEqItems a b)
    | nil | bool _ | int _ | num _ | str _ | dict _ => isFalse nofun
  | dict a, w => match w with
    | dict b => @decidable_of_iff _ (a = b) (by simp) (decEqEntries a b)
    | nil | bool _ | int _ | num _ | str _ | list _ => isFalse nofun

def decEqItems : (vs ws : List Value) → Decidable (vs = ws)
  | [], [] => isTrue rfl
  | [], _ :: _ | _ :: _, [] => isFalse nofun
  | v :: vs, w :: ws =>
    @decidable_of_iff _ (v = w ∧ vs = ws) (by simp)
      (@instDecidableAnd _ _ (decEq v w) (decEqItems vs ws))

def decEqEntries : (es fs : List (Str × Value)) → Decidable (es = fs)
  | [], [] => isTrue rfl
  | [], _ :: _ | _ :: _, [] => isFalse nofun
  | (k, v) :: es, (l, w) :: fs =>
    @decidable_of_iff _ (k = l ∧ v = w ∧ es = fs) (by simp [and_assoc])
      (@instDecidableAnd _ _ _ (@instDecidableAnd _ _ (decEq v w) (decEqEntries es fs)))

end
instance : DecidableEq Value := decEq

end LoxMachine.Value
