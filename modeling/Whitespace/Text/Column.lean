/-!
Columns of fixed width in printed tables. A text wider than its column is printed whole.
-/
namespace Whitespace.Column

/-- Filled up with blanks on the right. -/
def left (width : Nat) (text : String) : String :=
  String.ofList (text.toList.rightpad width ' ')

/-- Filled up with blanks on the left. -/
def right (width : Nat) (text : String) : String :=
  String.ofList (text.toList.leftpad width ' ')

/-- An address or line number, at least four digits wide. -/
def address (n : Nat) : String :=
  String.ofList ((toString n).toList.leftpad 4 '0')

end Whitespace.Column
