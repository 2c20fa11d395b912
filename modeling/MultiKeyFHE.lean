import MultiKeyFHE.Accumulator.ProductNoise
import MultiKeyFHE.Accumulator.RingGSW
import MultiKeyFHE.Accumulator.Ternary
import MultiKeyFHE.Library.Schoolbook
import MultiKeyFHE.BigInt.Runs
import MultiKeyFHE.Context.GadgetTable
import MultiKeyFHE.Context.SignBase
import MultiKeyFHE.Gate.Binary
import MultiKeyFHE.Gate.PlaintextModulus
import MultiKeyFHE.Gate.TruthTable
import MultiKeyFHE.KeyGen.KeySwitch
import MultiKeyFHE.KeyGen.BlockedProduct
import MultiKeyFHE.KeyGen.Masks
import MultiKeyFHE.Polynomial.FormatChange
import MultiKeyFHE.Polynomial.Reduced
import MultiKeyFHE.Serial.Context
import MultiKeyFHE.Serial.Transfer
import MultiKeyFHE.Serial.UniEnc
import MultiKeyFHE.Accumulator.ExternalProduct
import MultiKeyFHE.Accumulator.Schedule
import MultiKeyFHE.Accumulator.XZDDF
import MultiKeyFHE.Gate.EvalFunc
import MultiKeyFHE.KeyGen.Invertible
import MultiKeyFHE.Native.SignedDigits
import MultiKeyFHE.Polynomial.Extraction
import MultiKeyFHE.Scheme.FreshMKLWE
import MultiKeyFHE.Scheme.ModSwitch
import MultiKeyFHE.Scheme.SingleUser
import MultiKeyFHE.BigInt.Quotients
import MultiKeyFHE.BigInt.LongDivision
import MultiKeyFHE.Context.SwitchCT
import MultiKeyFHE.Native.FastProducts
import MultiKeyFHE.Scheme.PublicKey
import MultiKeyFHE.Serial.SchemeParams
import MultiKeyFHE.Sign.Digits
import MultiKeyFHE.BigInt.VectorPowers
import MultiKeyFHE.Native.ModulusChange
import MultiKeyFHE.BigInt.Inverse
import MultiKeyFHE.Polynomial.BaseDecompose
import MultiKeyFHE.Native.Decimal
import MultiKeyFHE.NumberTheory.PolynomialArithmetic
import MultiKeyFHE.NumberTheory.PrimeSearch
import MultiKeyFHE.NumberTheory.RootOfUnity
import MultiKeyFHE.NumberTheory.AutomorphismIndex
import MultiKeyFHE.NumberTheory.Cyclotomic
import MultiKeyFHE.Transform.Precomputations
import MultiKeyFHE.Gate.GeneratedKeys
import MultiKeyFHE.Gate.LookUpPrograms
import MultiKeyFHE.Sign.GeneratedKeys
import MultiKeyFHE.Library.Horner
import MultiKeyFHE.Library.Residues
import MultiKeyFHE.Native.Wide
import MultiKeyFHE.Rns.DCRTPoly
import MultiKeyFHE.Rns.Leveled
import MultiKeyFHE.Rns.Rescale
import MultiKeyFHE.Accumulator.XZDDFNoise
import MultiKeyFHE.Rns.BGV
