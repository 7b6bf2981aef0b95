/-
This file is the dynamic values that messages are mapped to before they are sent:
byte strings, numbers, booleans, maps with named fields, and lists. The values belong
to some library, so they are a structure; its laws say that a field reads as what was
put under its name, that what is put under other names does not matter, that a flag
which was never put is false, and that a list has its elements in the order in which
they were appended.
-/

import ConsensusDB.Lib.Wire
import Mathlib.Data.List.Induction

open Wire

/-- A library of dynamic values. The typed getters give the content of the field; `none` and a value
that is not a map stand for the nil of a getter without a result. -/
structure Values where
  Value : Type
  Map : Type
  Items : Type
  raw : Bytes → Value
  long : Int64 → Value
  boolean : Bool → Value
  ofMap : Map → Value
  ofList : Items → Value
  asMap : Value → Option Map
  emptyMap : Map
  put : Map → String → Value → Map
  getString : Map → String → Bytes
  getNumber : Map → String → Int64
  getBool : Map → String → Bool
  getMap : Map → String → Option Map
  getList : Map → String → Option Items
  emptyList : Items
  append : Items → Value → Items
  len : Items → Nat
  getMapAt : Items → Nat → Value
  asMap_ofMap : ∀ map, asMap (ofMap map) = some map
  getString_put : ∀ map name bytes, getString (put map name (raw bytes)) name = bytes
  getNumber_put : ∀ map name number, getNumber (put map name (long number)) name = number
  getBool_put : ∀ map name flag, getBool (put map name (boolean flag)) name = flag
  getMap_put : ∀ map name content, getMap (put map name (ofMap content)) name = some content
  getList_put : ∀ map name items, getList (put map name (ofList items)) name = some items
  getString_other : ∀ map name other value, other ≠ name →
    getString (put map other value) name = getString map name
  getNumber_other : ∀ map name other value, other ≠ name →
    getNumber (put map other value) name = getNumber map name
  getBool_other : ∀ map name other value, other ≠ name →
    getBool (put map other value) name = getBool map name
  getMap_other : ∀ map name other value, other ≠ name →
    getMap (put map other value) name = getMap map name
  getList_other : ∀ map name other value, other ≠ name →
    getList (put map other value) name = getList map name
  getBool_empty : ∀ name, getBool emptyMap name = false
  len_empty : len emptyList = 0
  len_append : ∀ items value, len (append items value) = len items + 1
  getMapAt_len : ∀ items map, getMapAt (append items (ofMap map)) (len items) = ofMap map
  getMapAt_lt : ∀ items value index, index < len items →
    getMapAt (append items value) index = getMapAt items index

namespace Values

attribute [simp] asMap_ofMap getString_put getNumber_put getBool_put getMap_put getList_put
  getString_other getNumber_other getBool_other getMap_other getList_other getBool_empty len_empty
  len_append

variable (values : Values)

/-- A map with the given fields, put one after another. -/
def fields (entries : List (String × values.Value)) : values.Map :=
  entries.foldl (fun map entry => values.put map entry.1 entry.2) values.emptyMap

/-- A list of maps, appended one after another. -/
def maps (contents : List values.Map) : values.Items :=
  contents.foldl (fun items content => values.append items (values.ofMap content)) values.emptyList

theorem maps_snoc (contents : List values.Map) (last : values.Map) :
    values.maps (contents ++ [last]) =
      values.append (values.maps contents) (values.ofMap last) := by
  rw [maps, List.foldl_append]
  rfl

theorem len_maps (contents : List values.Map) : values.len (values.maps contents) =
    contents.length := by
  induction contents using List.reverseRecOn with
  | nil => exact values.len_empty
  | append_singleton front last inductionHypothesis =>
    rw [maps_snoc, len_append, inductionHypothesis, List.length_append, List.length_singleton]

/-- The maps of a list are found at their positions. -/
theorem getMapAt_maps (before : List values.Map) (content : values.Map) (after : List values.Map) :
    values.getMapAt (values.maps (before ++ content :: after)) before.length =
      values.ofMap content := by
  induction after using List.reverseRecOn with
  | nil =>
    rw [maps_snoc, ← len_maps]
    exact values.getMapAt_len _ _
  | append_singleton front last inductionHypothesis =>
    rw [← List.cons_append, ← List.append_assoc, maps_snoc, values.getMapAt_lt,
      inductionHypothesis]
    rw [len_maps, List.length_append, List.length_cons]
    omega

/-! ### Plain trees -/

/-- Values as plain trees. -/
inductive Plain where
  | raw (bytes : Bytes)
  | long (number : Int64)
  | boolean (flag : Bool)
  | map (entries : List (String × Plain))
  | list (items : List Plain)

theorem lookup_cons_of_ne (map : List (String × Plain)) {name other : String} (value : Plain)
    (apart : other ≠ name) : List.lookup name ((other, value) :: map) = List.lookup name map := by
  rw [List.lookup_cons, beq_false_of_ne apart.symm]

/-- Plain trees are a library of values: a map keeps what was put, the latest first. -/
def plain : Values where
  Value := Plain
  Map := List (String × Plain)
  Items := List Plain
  raw := .raw
  long := .long
  boolean := .boolean
  ofMap := .map
  ofList := .list
  asMap
    | .map entries => some entries
    | _ => none
  emptyMap := []
  put map name value := (name, value) :: map
  getString map name :=
    match map.lookup name with
    | some (.raw bytes) => bytes
    | _ => []
  getNumber map name :=
    match map.lookup name with
    | some (.long number) => number
    | _ => 0
  getBool map name :=
    match map.lookup name with
    | some (.boolean flag) => flag
    | _ => false
  getMap map name :=
    match map.lookup name with
    | some (.map entries) => some entries
    | _ => none
  getList map name :=
    match map.lookup name with
    | some (.list items) => some items
    | _ => none
  emptyList := []
  append items value := items ++ [value]
  len := List.length
  getMapAt items index := items[index]?.getD (.list [])
  asMap_ofMap _ := rfl
  getString_put map name bytes := by simp
  getNumber_put map name number := by simp
  getBool_put map name flag := by simp
  getMap_put map name content := by simp
  getList_put map name items := by simp
  getString_other map name other value apart := by rw [lookup_cons_of_ne map value apart]
  getNumber_other map name other value apart := by rw [lookup_cons_of_ne map value apart]
  getBool_other map name other value apart := by rw [lookup_cons_of_ne map value apart]
  getMap_other map name other value apart := by rw [lookup_cons_of_ne map value apart]
  getList_other map name other value apart := by rw [lookup_cons_of_ne map value apart]
  getBool_empty _ := rfl
  len_empty := rfl
  len_append items value := List.length_append
  getMapAt_len items map := by simp
  getMapAt_lt items value index below := by rw [List.getElem?_append_left below]

end Values
