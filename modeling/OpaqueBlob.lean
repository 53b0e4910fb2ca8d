import OpaqueBlob.Memcmp
import OpaqueBlob.BaseBlob
import OpaqueBlob.Order
import OpaqueBlob.Serialize
import OpaqueBlob.GetUint64
import OpaqueBlob.Numeric
import OpaqueBlob.FieldQueue
