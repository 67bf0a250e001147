/-! # Words

The numbers that count arguments, rows and columns are words of 64 bits. They bound the columns that
can be numbered and the lists that can be held. -/

namespace RelationalLP

namespace Word

/-- The greatest word. -/
def greatest : Nat := 0xffffffffffffffff

/-- Whether a number is a word. -/
def fits (n : Nat) : Bool := n ≤ greatest

/-- The greatest length of a list of numbers of eight bytes: a list takes fewer than half of the bytes
that words can tell apart. -/
def greatestLength : Nat := 0xfffffffffffffff

end Word

end RelationalLP
