import DocCodec.Main
import DocCodec.Proofs.Assembly.Trace
import DocCodec.Proofs.Decoder.Language
import DocCodec.Proofs.Decoder.Stopping
import DocCodec.Proofs.Decoder.Truncated
import DocCodec.Proofs.Encoder.Cut
import DocCodec.Proofs.Literal.Runs
import DocCodec.Proofs.RoundTrip.Brackets
import DocCodec.Proofs.RoundTrip.Quoted
import DocCodec.Proofs.RoundTrip.SixPlaces
import DocCodec.Proofs.RoundTrip.Utf8
import DocCodec.Proofs.Scanner.Rejection
import DocCodec.Proofs.Scanner.Spelling
