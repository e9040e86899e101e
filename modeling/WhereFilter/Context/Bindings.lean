import WhereFilter.Context.Value
import WhereFilter.Keyed

namespace WhereFilter

/-- A variable may be written with a leading `#`, which is not part of its name. -/
def bareName (name : Text) : Text :=
  (Text.after? ['#'] name).getD name

theorem bareName_hash (name : Text) : bareName ('#' :: name) = name := by
  simp [bareName, Text.after?]

theorem bareName_of_ne {name : Text} (h : name.head? ≠ some '#') : bareName name = name := by
  cases name with
  | nil => rfl
  | cons c r =>
    have hc : '#' ≠ c := by
      rintro rfl
      exact h rfl
    simp [bareName, Text.after?, hc]

/-- The values bound to variables, under the names they were given with. -/
abbrev Bindings := Keyed Text Value

namespace Bindings

/-- A value bound to the bare name comes before one bound to the name with a `#`. -/
def lookup? (b : Bindings) (name : Text) : Option Value :=
  (b.get? (bareName name)).or (b.get? ('#' :: bareName name))

def binds (b : Bindings) (name : Text) : Bool :=
  (b.lookup? name).isSome

end Bindings

end WhereFilter
