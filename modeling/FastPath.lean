import FastPath.Listing.Code
import FastPath.Proofs.Bytecode.Codec
import FastPath.Proofs.Bytecode.Pool
import FastPath.Proofs.Cache
import FastPath.Proofs.Compile.Safety
import FastPath.Proofs.Frame.RoundTrip
import FastPath.Proofs.Generic.Equality
import FastPath.Proofs.Heap.History
import FastPath.Proofs.Heap.PlainObject
import FastPath.Proofs.Meaning.Agreement
import FastPath.Proofs.Text.Radix
