/-!
# The page of memory

All of the machine's memory is one page of 256 bytes, so a byte is also an address. Reads and
writes are total, and an address one past the last is the first again.

Specification: section C, the simulated machine.
-/

namespace OnePage

/-- The bytes of the whole memory, by address. -/
abbrev Page := Vector UInt8 256

namespace Page

/-- The page that holds zero everywhere. -/
def blank : Page := Vector.replicate 256 0

/-- The byte at an address. -/
def read (page : Page) (address : UInt8) : UInt8 :=
  have : address.toNat < 256 := address.toNat_lt
  page[address.toNat]

/-- The page with one byte replaced. -/
def write (page : Page) (address value : UInt8) : Page :=
  page.set address.toNat value address.toNat_lt

/-- The first 256 of the bytes given, filled up with zeros. -/
def ofList (bytes : List UInt8) : Page :=
  Vector.ofFn fun i ↦ bytes.getD i.val 0

/-- The bytes from an address up to the first zero or to the end of the page. -/
def textAt (page : Page) (address : UInt8) : List UInt8 :=
  (page.toList.drop address.toNat).takeWhile (· != 0)

/-- The addresses, in ascending order, at which `after` differs from `before`, each with its new
byte. -/
def changes (before after : Page) : List (Nat × UInt8) :=
  (List.range 256).filterMap fun address ↦
    let value := after.read (UInt8.ofNat address)
    if before.read (UInt8.ofNat address) = value then none else some (address, value)

/-- Reading an address just written gives the byte written. -/
theorem read_write_self (page : Page) (address value : UInt8) :
    (page.write address value).read address = value := by
  simp [read, write]

/-- Writing one address leaves every other as it was. -/
theorem read_write_of_ne (page : Page) {address other : UInt8} (value : UInt8)
    (h : address ≠ other) : (page.write address value).read other = page.read other := by
  have hne : address.toNat ≠ other.toNat := fun e ↦ h (UInt8.toNat_inj.mp e)
  simp [read, write, hne]

end Page

end OnePage
