import PromotionManagement.Text

namespace PromotionManagement
set_option autoImplicit true

/-- The scan of `splitCsvLine` from one character on, with the fields cut so far. -/
def splitCsvFrom (fields : List Text) (field : Text) : Bool → Text → List Text
  | _, [] => fields ++ [field]
  | true, '"' :: '"' :: rest => splitCsvFrom fields (field ++ ['"']) true rest
  | true, '"' :: rest => splitCsvFrom fields field false rest
  | true, c :: rest => splitCsvFrom fields (field ++ [c]) true rest
  | false, '"' :: rest => splitCsvFrom fields field true rest
  | false, ',' :: rest => splitCsvFrom (fields ++ [field]) [] false rest
  | false, c :: rest => splitCsvFrom fields (field ++ [c]) false rest

def splitCsvLine (line : Text) : List Text := splitCsvFrom [] [] false line

/-- One vendor row, after parsing and before the pricing rules see it. -/
structure VendorRow where
  sku : Text
  name : Text
  category : Text
  vendorPriceCents : Nat
  stockQuantity : Nat
deriving DecidableEq, Repr

def digit (c : Char) : Bool := '0' ≤ c && c ≤ '9'

/-- `/^\d+$/` -/
def stockShape (t : Text) : Bool := t ≠ [] && t.all digit

/-- `/^\d+(?:\.\d{1,2})?$/` -/
def priceShape (t : Text) : Bool :=
  t.takeWhile digit ≠ [] &&
    match t.dropWhile digit with
    | [] => true
    | c :: fraction =>
      c == '.' && (fraction.length == 1 || fraction.length == 2) && fraction.all digit

/-- Each field against the contract, in the order a reader would check them. -/
def fieldRejection (sku name category price stock : Text) : Option String :=
  if sku = [] then some "sku is empty"
  else if name = [] then some "name is empty"
  else if category = [] then some "category is empty"
  else if priceShape price = false then
    some "vendor_price is not a decimal with at most two fraction places"
  else if stockShape stock = false then some "stock_quantity is not a whole number"
  else none

/-- `fraction.padEnd(2, '0')` -/
def padFraction (fraction : Text) : Text := fraction ++ List.replicate (2 - fraction.length) '0'

/-- The digits of a price in cents: its whole part and its fraction padded to two places. -/
def centDigits (price : Text) : Text :=
  match price.splitOn '.' with
  | [] => padFraction []
  | [whole] => whole ++ padFraction []
  | whole :: fraction :: _ => whole ++ padFraction fraction

/-- `line.endsWith('\r') ? line.slice(0, -1) : line` -/
def stripCarriageReturn (line : Text) : Text :=
  if line.getLast? = some '\r' then line.dropLast else line

/-- The fields of a line, trimmed. -/
def vendorFields (line : Text) : List Text :=
  (splitCsvLine (stripCarriageReturn line)).map Text.trim

def parseVendorRow (line : Text) : Except String VendorRow :=
  match vendorFields line with
  | [sku, name, category, price, stock] =>
    match fieldRejection sku name category price stock with
    | some rejection => .error rejection
    | none =>
      let cents := toNumber (centDigits price)
      if isSafeInteger cents = false then .error "vendor_price is out of range"
      else
        let stockQuantity := toNumber stock
        if isSafeInteger stockQuantity = false then .error "stock_quantity is out of range"
        else .ok { sku, name, category, vendorPriceCents := cents, stockQuantity }
  | _ => .error "expected 5 columns"

example : parseVendorRow "SKU-1,\"Scarf, wool\",Accessories,8.7,12\r".toList =
    .ok ⟨"SKU-1".toList, "Scarf, wool".toList, "Accessories".toList, 870, 12⟩ := by decide +kernel

/-- An accepted line has five fields of the required shape, in the safe integer range. -/
theorem parseVendorRow_ok (h : parseVendorRow line = .ok row) :
    ∃ price stock, vendorFields line = [row.sku, row.name, row.category, price, stock] ∧
      fieldRejection row.sku row.name row.category price stock = none ∧
      row.vendorPriceCents = Nat.ofDigitChars 10 (centDigits price) 0 ∧
      row.vendorPriceCents ≤ maxSafeInteger ∧
      row.stockQuantity = Nat.ofDigitChars 10 stock 0 ∧ row.stockQuantity ≤ maxSafeInteger := by
  rw [parseVendorRow] at h
  split at h
  · rename_i sku name category price stock hf
    split at h
    · cases h
    · rename_i hn
      dsimp only at h
      split at h
      · cases h
      · rename_i hp
        split at h
        · cases h
        · rename_i hs
          cases h
          have hp' := Bool.eq_true_of_not_eq_false hp
          have hs' := Bool.eq_true_of_not_eq_false hs
          exact ⟨price, stock, hf, hn, toNumber_of_safe hp', of_decide_eq_true hp',
            toNumber_of_safe hs', of_decide_eq_true hs'⟩
  · cases h

end PromotionManagement
