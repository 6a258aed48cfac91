import Mathlib
import FlatModules.Proofs.Naming.FlatName

/-!
# Naming — module names

A module name is a name with its first letter capital.  The module name of a flat name is the flat
name of components of which the first is capital (`moduleName_flatName`), so that flat names with one
module name are of one length and differ in the case of one letter at most
(`eq_of_moduleName_flatName`); and no flat name has the module name of an alias module
(`moduleName_append_aliases_ne`).
-/

namespace FlatModules

namespace Naming

theorem moduleName_eq {name : String} {first : Char} {rest : List Char}
    (h : name.toList = first :: rest) :
    (moduleName name).toList = first.toUpper :: rest := by
  simp [moduleName, h]

/-- Only the first letter counts for the case. -/
theorem moduleName_append {name : String} (h : name ≠ "") (text : String) :
    moduleName (name ++ text) = moduleName name ++ text := by
  obtain ⟨first, rest, e⟩ := List.exists_cons_of_ne_nil fun e => h (String.toList_inj.1 e)
  have whole : (name ++ text).toList = first :: (rest ++ text.toList) := by simp [e]
  apply String.toList_inj.1
  rw [moduleName_eq whole, String.toList_append, moduleName_eq e, List.cons_append]

theorem hasPair_cons_of_ne {mark c : Char} (h : c ≠ mark) (cs : List Char) :
    hasPair mark (c :: cs) = hasPair mark cs := by
  cases cs with
  | nil => rfl
  | cons d cs => simp [hasPair, h]

/-- A component with its first letter capital is a component. -/
theorem isComponent_moduleName {name : String} (h : isComponent name = true) :
    isComponent (moduleName name) = true := by
  obtain ⟨first, rest, e, alpha, chars, pair, last⟩ := isComponent_iff.1 h
  have ne {c : Char} (alpha : c.isAlpha = true) : c ≠ '_' := by
    rintro rfl
    revert alpha
    decide
  have upper := (Char.isAlpha_toUpper_eq_isAlpha first).trans alpha
  refine isComponent_iff.2 ⟨_, rest, moduleName_eq e, upper, chars, ?_, ?_⟩
  · rw [hasPair_cons_of_ne (ne upper), ← hasPair_cons_of_ne (ne alpha), pair]
  · cases rest with
    | nil => simpa using ne upper
    | cons c cs => simpa using last

theorem ne_empty_of_isComponent {name : String} (h : isComponent name = true) : name ≠ "" := by
  rintro rfl
  revert h
  decide

theorem flatName_cons {c : String} {cs : List String} (h : cs ≠ []) :
    flatName (c :: cs) = c ++ (separator ++ flatName cs) := by
  apply String.toList_inj.1
  simp only [flatName, String.toList_append, String.toList_ofList, List.map_cons]
  rw [Text.joinWith_cons_of_ne_nil _ _ (by simpa using h)]
  simp

@[simp] theorem flatName_singleton (c : String) : flatName [c] = c := by
  simp [flatName, Text.joinWith]

/-- The module name of a flat name. -/
theorem moduleName_flatName {c : String} (h : isComponent c = true) (cs : List String) :
    moduleName (flatName (c :: cs)) = flatName (moduleName c :: cs) := by
  by_cases nil : cs = []
  · simp [nil]
  · rw [flatName_cons nil, flatName_cons nil, moduleName_append (ne_empty_of_isComponent h)]

/-- The components of flat names with one module name: the first ones have one module name, and the
others are the same. -/
theorem eq_of_moduleName_flatName {c d : String} {cs ds : List String}
    (hc : ∀ x ∈ c :: cs, isComponent x = true) (hd : ∀ x ∈ d :: ds, isComponent x = true)
    (h : moduleName (flatName (c :: cs)) = moduleName (flatName (d :: ds))) :
    moduleName c = moduleName d ∧ cs = ds := by
  have valid {c : String} {cs : List String} (h : ∀ x ∈ c :: cs, isComponent x = true) :
      ∀ x ∈ moduleName c :: cs, isComponent x = true := by
    simp only [List.mem_cons, forall_eq_or_imp] at h ⊢
    exact ⟨isComponent_moduleName h.1, h.2⟩
  rw [moduleName_flatName (hc c List.mem_cons_self), moduleName_flatName (hd d List.mem_cons_self)]
    at h
  exact List.cons.inj (flatName_inj (by simp) (by simp) (valid hc) (valid hd) h)

/-- Flat names with one module name have as many components. -/
theorem length_eq_of_moduleName {cs ds : List String} (hne : cs ≠ []) (hne' : ds ≠ [])
    (hc : ∀ x ∈ cs, isComponent x = true) (hd : ∀ x ∈ ds, isComponent x = true)
    (h : moduleName (flatName cs) = moduleName (flatName ds)) : cs.length = ds.length := by
  obtain ⟨c, cs, rfl⟩ := List.exists_cons_of_ne_nil hne
  obtain ⟨d, ds, rfl⟩ := List.exists_cons_of_ne_nil hne'
  rw [List.length_cons, List.length_cons, (eq_of_moduleName_flatName hc hd h).2]

/-- No flat name has the module name of an alias module. -/
theorem moduleName_append_aliases_ne {cs ds : List String} (hne : cs ≠ []) (hne' : ds ≠ [])
    (hc : ∀ x ∈ cs, isComponent x = true) (hd : ∀ x ∈ ds, isComponent x = true) :
    moduleName (flatName cs) ≠ moduleName (flatName ds ++ aliasesSuffix) := by
  obtain ⟨c, cs, rfl⟩ := List.exists_cons_of_ne_nil hne
  rw [moduleName_append (flatName_ne_empty hne' hd), moduleName_flatName (hc c List.mem_cons_self)]
  refine flatName_ne_append_aliases ?_ _
  simp only [List.mem_cons, forall_eq_or_imp] at hc ⊢
  exact ⟨isComponent_moduleName hc.1, hc.2⟩

end Naming
end FlatModules
