import EditScript.Json.Value

namespace EditScript

@[ext] structure Style where
  attributes : List (String × Json)
  sorted : (Json.object attributes).Sorted
  deriving DecidableEq

namespace Style

def empty : Style := ⟨[], ⟨List.Pairwise.nil, trivial⟩⟩

instance : Inhabited Style := ⟨empty⟩

/-- The style of these attributes; of attributes with one name the last counts. -/
def ofAttributes (attributes : List (String × Json)) : Style :=
  ⟨Entries.sort (Json.canonicalMembers attributes), Json.sorted_canonical (.object attributes)⟩

def set (name : String) (value : Json) (style : Style) : Style :=
  ⟨Entries.put name value.canonical style.attributes,
    Entries.sorted_put style.sorted.1,
    Json.sortedMembers_put (Json.sorted_canonical value) style.sorted.2⟩

def get? (style : Style) (name : String) : Option Json := Entries.get? name style.attributes

def isEmpty (style : Style) : Bool := style.attributes.isEmpty

theorem eq_empty {style : Style} (h : style.isEmpty) : style = empty :=
  Style.ext (List.isEmpty_iff.mp h)

def size (style : Style) : Nat := style.attributes.length

/-- The names of the attributes in order, joined by commas. -/
def fieldMask (style : Style) : String := ",".intercalate (style.attributes.map (·.1))

def bold : Style := empty.set "bold" (.bool true)

def named (kind : String) : Style := empty.set "namedStyleType" (.string kind)

def toJson (style : Style) : Json := .object style.attributes

end Style
end EditScript
