set_option autoImplicit false

/-! # Powers

`x ^ n` with a natural `n` stands for the power of the core library. Other libraries bring instances
of their own for the same operation; where this namespace is open, they are passed over. -/

namespace ConfigLang.CorePower

attribute [scoped instance (high)] instPowNat

end ConfigLang.CorePower
